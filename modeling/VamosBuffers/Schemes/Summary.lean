import Mathlib.Tactic

/-! Lists that tell of longer lists. A writer that cannot keep up replaces a run of events by one
    item, a hole; what it writes still tells of every event, in order:

        events   e1 e2 e3 e4 e5 e6 e7
        items    e1 e2 ─── h ─── e6 e7        stands h [e3, e4, e5]

    Two holes never follow each other, so a hole stands for a whole run. -/

namespace Schemes

section Summary

variable {α : Type} (hole : α → Bool) (stands : α → List α → Prop)

/-- The list does not end in a hole. -/
def Open (items : List α) : Prop := ∀ a, items.getLast? = some a → hole a = false

/-- `Tells items events`: the items, with each hole replaced by the run it stands for, are the
    events. -/
inductive Tells : List α → List α → Prop
  | nil : Tells [] []
  | event {items events : List α} {e : α} : Tells items events → hole e = false →
      Tells (items ++ [e]) (events ++ [e])
  | run {items events ds : List α} {h : α} : Tells items events → Open hole items → hole h = true →
      ds ≠ [] → stands h ds → Tells (items ++ [h]) (events ++ ds)

variable {hole stands}

theorem Open.nil : Open hole [] := nofun

theorem Open.snoc {items : List α} {e : α} (h : hole e = false) : Open hole (items ++ [e]) := by
  intro a ha
  rw [List.getLast?_concat] at ha
  rw [← Option.some.inj ha]
  exact h

theorem Tells.imp {stands' : α → List α → Prop} {items events : List α}
    (h : Tells hole stands items events) (hs : ∀ a ds, stands a ds → stands' a ds) :
    Tells hole stands' items events := by
  induction h with
  | nil => exact .nil
  | event _ he ih => exact .event ih he
  | run _ ho hh hd hst ih => exact .run ih ho hh hd (hs _ _ hst)

/-- What the holes count is at most what there is. -/
theorem Tells.sum_le {n : α → ℕ} {items events : List α}
    (h : Tells hole stands items events) (hn : ∀ a ds, stands a ds → n a = ds.length) :
    ((items.filter hole).map n).sum ≤ events.length := by
  induction h with
  | nil => exact le_rfl
  | event _ he ih => simpa [List.filter_append, he] using Nat.le_succ_of_le ih
  | run _ _ hh _ hst ih => simpa [List.filter_append, hh, hn _ _ hst] using ih

theorem Tells.holes_le {items events : List α} (h : Tells hole stands items events) :
    (items.filter hole).length ≤ events.length := by
  induction h with
  | nil => exact le_rfl
  | event _ he ih => simpa [List.filter_append, he] using Nat.le_succ_of_le ih
  | @run items events ds a _ _ hh hd _ ih =>
    have hpos := List.length_pos_iff.mpr hd
    simp only [List.filter_append, List.length_append, List.filter_cons, hh, if_true,
      List.filter_nil, List.length_singleton]
    omega

/-- What the items before the last one tell. -/
theorem Tells.concat {items events : List α} {x : α} (h : Tells hole stands (items ++ [x]) events) :
    (∃ es, events = es ++ [x] ∧ Tells hole stands items es ∧ hole x = false) ∨
      ∃ es ds, events = es ++ ds ∧ Tells hole stands items es ∧ Open hole items ∧ hole x = true ∧
        ds ≠ [] ∧ stands x ds := by
  generalize hl : items ++ [x] = l at h
  cases h with
  | nil => simp at hl
  | event ht he =>
    obtain ⟨rfl, hx⟩ := List.append_inj' hl rfl
    obtain rfl := List.singleton_inj.mp hx
    exact .inl ⟨_, rfl, ht, he⟩
  | run ht ho hh hd hst =>
    obtain ⟨rfl, hx⟩ := List.append_inj' hl rfl
    obtain rfl := List.singleton_inj.mp hx
    exact .inr ⟨_, _, rfl, ht, ho, hh, hd, hst⟩

/-- An item that is no hole is one of the events. -/
theorem Tells.mem {items events : List α} (h : Tells hole stands items events) {x : α}
    (hx : x ∈ items) (hn : hole x = false) : x ∈ events := by
  induction h with
  | nil => cases hx
  | event _ _ ih =>
    rcases List.mem_append.mp hx with hx | hx
    · exact List.mem_append_left _ (ih hx)
    · exact List.mem_append_right _ hx
  | run _ _ hh _ _ ih =>
    rcases List.mem_append.mp hx with hx | hx
    · exact List.mem_append_left _ (ih hx)
    · obtain rfl := List.mem_singleton.mp hx
      exact Bool.noConfusion (hn.symm.trans hh)

/-- There is at most one hole at the end. -/
theorem Tells.holes_last {items holes events : List α}
    (h : Tells hole stands (items ++ holes) events) (hh : ∀ x ∈ holes, hole x = true) :
    holes = [] ∨ ∃ x, holes = [x] := by
  induction holes using List.reverseRecOn with
  | nil => exact .inl rfl
  | append_singleton before x =>
    refine .inr ⟨x, ?_⟩
    rw [← List.append_assoc] at h
    have hx : hole x = true := hh x (by simp)
    rcases h.concat with ⟨-, -, -, hn⟩ | ⟨-, -, -, -, ho, -⟩
    · exact Bool.noConfusion (hn.symm.trans hx)
    cases before using List.reverseRecOn with
    | nil => rfl
    | append_singleton before y =>
      have hy := ho y (by rw [← List.append_assoc, List.getLast?_concat])
      exact Bool.noConfusion (hy.symm.trans (hh y (by simp)))

end Summary

end Schemes
