import Mathlib.Tactic
import VamosBuffers.Core.ShamonStreams

/-! The end of a `shamon` with dynamic substreams: `shamon_destroy` in `src/core/shamon.c` and the
    destroy functions of `src/core/stream.c`.

        streams   s        t        s.sub.1   ...
                  │ frees s and all streams below it
                                    └ parent_stream is read, of an object that is freed

    Destroying one stream is right: it frees what is below it, each object once. All managers are
    joined before. -/

namespace Vamos
open Schemes

namespace ShamonStreams

/-- The stream at `q` is the one at `p`, or lies below it. -/
def Below (m : ShamonStreams) : ℕ → ℕ → Prop := Relation.ReflTransGen m.HasParent

theorem HasParent.unique {m : ShamonStreams} {q p p' : ℕ} (h : m.HasParent q p)
    (h' : m.HasParent q p') : p = p' := by
  obtain ⟨t, ht, hp⟩ := h
  obtain ⟨t', ht', hp'⟩ := h'
  cases ht.symm.trans ht'
  exact Option.some.inj (hp.symm.trans hp')

theorem HasParent.lt {m : ShamonStreams} (h : Ok m) {q p : ℕ} (hp : m.HasParent q p) : p < q := by
  obtain ⟨t, ht, hp⟩ := hp
  exact (h.parent q t p ht hp).1

theorem Below.le {m : ShamonStreams} (h : Ok m) {q p : ℕ} (hb : m.Below q p) : p ≤ q := by
  induction hb with
  | refl => exact le_rfl
  | tail _ hp ih => exact ((hp.lt h).le).trans ih

/-- Two streams with a common parent have nothing in common below them. -/
theorem not_below_both {m : ShamonStreams} (h : Ok m) {p q q' x : ℕ} (hq : m.HasParent q p)
    (hq' : m.HasParent q' p) (hne : q ≠ q') (hx : m.Below x q) : ¬ m.Below x q' := by
  -- the lower of two ancestors would be below `p`, and `p` below itself
  have hlower : ∀ {q q' : ℕ}, m.HasParent q p → m.HasParent q' p → q ≠ q' → ¬ m.Below q q' := by
    intro q q' hq hq' hne hb
    rcases Relation.ReflTransGen.cases_head hb with heq | ⟨p', hp', hb⟩
    · exact hne heq
    · cases hq.unique hp'
      exact absurd (Below.le h hb) (not_le.mpr (hq'.lt h))
  intro hx'
  have hunique : Relator.RightUnique m.HasParent := fun _ _ _ => HasParent.unique
  rcases Relation.ReflTransGen.total_of_right_unique hunique hx hx' with hb | hb
  · exact hlower hq hq' hne hb
  · exact hlower hq' hq hne.symm hb

/-- From `m'` to `m''` the streams that satisfy `P` are freed, and no others. -/
def Freed (P : ℕ → Prop) (m' m'' : ShamonStreams) : Prop :=
  (∀ x, P x → m''.heap x = none) ∧ ∀ x, ¬ P x → m''.heap x = m'.heap x

/-- A loop over streams with nothing in common below them. -/
theorem foldlM_freed {m : ShamonStreams} {body : ShamonStreams → ℕ → Except Stop ShamonStreams}
    {l : List ℕ} (hbody : ∀ q ∈ l, ∀ m', (∀ x, m.Below x q → m'.heap x = m.heap x) →
      ∃ m'', body m' q = .ok m'' ∧ Freed (m.Below · q) m' m'')
    (hl : l.Pairwise fun q q' => ∀ x, m.Below x q → ¬ m.Below x q') {m' : ShamonStreams}
    (hm' : ∀ q ∈ l, ∀ x, m.Below x q → m'.heap x = m.heap x) :
    ∃ m'', l.foldlM body m' = .ok m'' ∧ Freed (fun x => ∃ q ∈ l, m.Below x q) m' m'' := by
  induction l generalizing m' with
  | nil => exact ⟨m', rfl, fun _ ⟨_, hq, _⟩ => absurd hq List.not_mem_nil, fun _ _ => rfl⟩
  | cons q l ih =>
    obtain ⟨hq, hl⟩ := List.pairwise_cons.mp hl
    obtain ⟨m1, h1, f1, k1⟩ := hbody q List.mem_cons_self m' (hm' q List.mem_cons_self)
    have hm1 : ∀ q' ∈ l, ∀ x, m.Below x q' → m1.heap x = m.heap x := by
      intro q' hq' x hx
      rw [k1 x fun h => hq q' hq' x h hx]
      exact hm' q' (List.mem_cons_of_mem _ hq') x hx
    obtain ⟨m2, h2, f2, k2⟩ := ih (fun q' hq' => hbody q' (List.mem_cons_of_mem _ hq')) hl hm1
    refine ⟨m2, by rw [List.foldlM_cons]; exact except_bind_ok.mpr ⟨m1, h1, h2⟩, ?_, ?_⟩
    · rintro x ⟨q', hq', hx⟩
      by_cases hin : ∃ q' ∈ l, m.Below x q'
      · exact f2 x hin
      · rw [k2 x hin]
        rcases List.mem_cons.mp hq' with rfl | hq'
        · exact f1 x hx
        · exact absurd ⟨q', hq', hx⟩ hin
    · intro x hx
      rw [k2 x fun ⟨q', hq', h⟩ => hx ⟨q', List.mem_cons_of_mem _ hq', h⟩]
      exact k1 x fun h => hx ⟨q, List.mem_cons_self, h⟩

/-- The body of a destroy function frees the stream and all streams below it, each of them once. -/
theorem destroy_body {m : ShamonStreams} (h : Ok m) {depth p : ℕ} {s : Stream}
    (hs : m.heap p = some s) (hdepth : ∀ q ∈ s.substreams, ∀ m',
      (∀ x, m.Below x q → m'.heap x = m.heap x) →
      ∃ m'', substreamDestroy depth m' q = .ok m'' ∧ Freed (m.Below · q) m' m'')
    {m' : ShamonStreams} (hm' : ∀ x, m.Below x p → m'.heap x = m.heap x) :
    ∃ m'', s.substreams.foldlM (fun m q => do
        let _ ← m.read q
        substreamDestroy depth m q) (m'.detach s.key) = .ok m'' ∧
      Freed (m.Below · p) m' (m''.free p) := by
  have hpar := fun q hq => substreams_parent h hs (q := q) hq
  have hdisj : s.substreams.Pairwise fun q q' => ∀ x, m.Below x q → ¬ m.Below x q' :=
    (substreams_nodup h hs).imp_of_mem fun hq hq' hne x => not_below_both h (hpar _ hq) (hpar _ hq') hne
  have hbelow : ∀ q ∈ s.substreams, ∀ x, m.Below x q → m.Below x p := fun q hq x hx =>
    hx.tail (hpar q hq)
  have hd : ∀ q ∈ s.substreams, ∀ x, m.Below x q → (m'.detach s.key).heap x = m.heap x :=
    fun q hq x hx => hm' x (hbelow q hq x hx)
  obtain ⟨m'', hf, f, k⟩ := foldlM_freed (m := m) (fun q hq m1 hm1 => by
    obtain ⟨t, ht, -⟩ := hpar q hq
    obtain ⟨m2, h2, hfr⟩ := hdepth q hq m1 hm1
    exact ⟨m2, except_bind_ok.mpr ⟨t, read_ok.mpr ((hm1 q .refl).trans ht), h2⟩, hfr⟩)
    hdisj hd
  refine ⟨m'', hf, fun x hx => ?_, fun x hx => ?_⟩
  · by_cases hxp : x = p
    · rw [hxp]
      exact Function.update_self ..
    · refine (Function.update_of_ne hxp ..).trans (f x ?_)
      obtain heq | ⟨q, hxq, t, ht, hq⟩ := Relation.ReflTransGen.cases_tail hx
      · exact absurd heq.symm hxp
      · obtain ⟨-, s', hs', hmem⟩ := h.parent q t p ht hq
        cases hs.symm.trans hs'
        exact ⟨q, hmem, hxq⟩
  · have hxp : x ≠ p := fun heq => hx (heq ▸ .refl)
    refine (Function.update_of_ne hxp ..).trans (k x ?_)
    rintro ⟨q, hq, hxq⟩
    exact hx (hbelow q hq x hxq)

theorem substreamDestroy_frees {m : ShamonStreams} (h : Ok m) {depth : ℕ} :
    ∀ {p : ℕ}, (m.heap p).isSome = true → m.next ≤ p + depth → ∀ m' : ShamonStreams,
      (∀ x, m.Below x p → m'.heap x = m.heap x) →
      ∃ m'', substreamDestroy depth m' p = .ok m'' ∧ Freed (m.Below · p) m' m'' := by
  induction depth with
  | zero =>
    intro p hp hd
    have := h.next p ((h.added p).mp hp)
    omega
  | succ depth ih =>
    intro p hp hd m' hm'
    obtain ⟨s, hs⟩ := Option.isSome_iff_exists.mp hp
    obtain ⟨m'', hf, hfr⟩ := destroy_body h hs (fun q hq => by
      have hpar := substreams_parent h hs hq
      have hlt := hpar.lt h
      obtain ⟨t, ht, -⟩ := hpar
      exact ih (by rw [ht]; rfl) (by omega)) hm'
    exact ⟨_, except_bind_ok.mpr ⟨s, read_ok.mpr ((hm' p .refl).trans hs),
      except_bind_ok.mpr ⟨m'', hf, rfl⟩⟩, hfr⟩

theorem streamDestroy_frees {m : ShamonStreams} (h : Ok m) {p : ℕ} (hp : (m.heap p).isSome = true)
    {m' : ShamonStreams} (hm' : ∀ x, m.Below x p → m'.heap x = m.heap x) :
    ∃ m'', streamDestroy m.next m' p = .ok m'' ∧ Freed (m.Below · p) m' m'' := by
  obtain ⟨s, hs⟩ := Option.isSome_iff_exists.mp hp
  obtain ⟨m'', hf, hfr⟩ := destroy_body h hs (fun q hq => by
    obtain ⟨t, ht, -⟩ := substreams_parent h hs hq
    exact substreamDestroy_frees h (by rw [ht]; rfl) (Nat.le_add_left _ _)) hm'
  exact ⟨_, except_bind_ok.mpr ⟨s, read_ok.mpr ((hm' p .refl).trans hs),
    except_bind_ok.mpr ⟨m'', hf, rfl⟩⟩, hfr⟩

/-- A stream without a parent is below no other. -/
theorem below_root {m : ShamonStreams} {q p : ℕ} {s : Stream} (hs : m.heap q = some s)
    (hp : s.parentStream = none) (hb : m.Below q p) : q = p := by
  rcases Relation.ReflTransGen.cases_head hb with heq | ⟨p', ⟨t, ht, htp⟩, -⟩
  · exact heq
  · cases hs.symm.trans ht
    exact absurd (hp.symm.trans htp) (Option.some_ne_none p').symm

/-- The loop of `shamon_destroy` over streams without parents frees what is below them. -/
theorem destroy_roots {m : ShamonStreams} (h : Ok m) {l : List ℕ} (hl : l.Sublist m.streams)
    (hroots : ∀ p ∈ l, ∃ s, m.heap p = some s ∧ s.parentStream = none) :
    ∃ m'', l.foldlM (fun m' p => do
        let s ← m'.read p
        if s.parentStream = none then streamDestroy m.next m' p else pure m') m = .ok m'' ∧
      Freed (fun x => ∃ p ∈ l, m.Below x p) m m'' := by
  refine foldlM_freed (m := m) (fun p hp m' hm' => ?_) ?_ fun _ _ _ _ => rfl
  · obtain ⟨s, hs, hpar⟩ := hroots p hp
    obtain ⟨m'', hd, hfr⟩ := streamDestroy_frees h (by rw [hs]; rfl) hm'
    refine ⟨m'', except_bind_ok.mpr ⟨s, read_ok.mpr ((hm' p .refl).trans hs), ?_⟩, hfr⟩
    rw [if_pos hpar]
    exact hd
  · refine (h.sorted.sublist hl).imp_of_mem fun {p q} hp hq hlt x hx hx' => ?_
    have hunique : Relator.RightUnique m.HasParent := fun _ _ _ => HasParent.unique
    obtain ⟨s, hs, hsp⟩ := hroots p hp
    obtain ⟨t, ht, htp⟩ := hroots q hq
    rcases Relation.ReflTransGen.total_of_right_unique hunique hx hx' with hb | hb
    · exact hlt.ne (below_root hs hsp hb)
    · exact hlt.ne (below_root ht htp hb).symm

theorem not_isSubstream {m : ShamonStreams} (h : Ok m) {p : ℕ} (hp : p ∈ m.streams)
    (hsub : m.isSubstream p = false) : ∃ s, m.heap p = some s ∧ s.parentStream = none := by
  obtain ⟨s, hs⟩ := Option.isSome_iff_exists.mp ((h.added p).mpr hp)
  refine ⟨s, hs, ?_⟩
  rw [isSubstream, hs, Option.bind_some] at hsub
  exact Option.not_isSome_iff_eq_none.mp (by rw [hsub]; exact Bool.false_ne_true)

/-! ### All streams -/

/-- All managers have exited. -/
def AllExited (m : ShamonStreams) : Prop := ∀ exited ∈ m.bufferThreads, exited = true

theorem forM_thrdJoin {l : List Bool} (h : ∀ exited ∈ l, exited = true) :
    l.forM thrdJoin = .ok () := by
  induction l with
  | nil => rfl
  | cons exited l ih =>
    obtain ⟨rfl, hl⟩ := List.forall_mem_cons.mp h
    exact except_bind_ok.mpr ⟨(), rfl, ih hl⟩

theorem forM_thrdJoin_waits {l : List Bool} (h : ¬ ∀ exited ∈ l, exited = true) :
    l.forM thrdJoin = .error .waits := by
  induction l with
  | nil => exact absurd (fun _ he => absurd he List.not_mem_nil) h
  | cons exited l ih =>
    cases exited with
    | false => rfl
    | true => exact except_bind_error rfl (ih fun hl => h (List.forall_mem_cons.mpr ⟨rfl, hl⟩))

/-- There is a manager for each arbiter buffer, so the assertion holds, and the managers are joined. -/
theorem destroy_eq {m : ShamonStreams} (h : Ok m) :
    m.destroy = m.bufferThreads.forM thrdJoin >>= fun _ => m.destroyStreams := by
  unfold destroy
  rw [if_pos (h.threads.trans h.buffers.length_eq)]

/-- The streams before a substream of the list, its parent among them, are gone when the loop comes
    to it. -/
theorem destroyStreams_reads_freed {m : ShamonStreams} (h : Ok m) {q : ℕ}
    (hq : m.streams.find? m.isSubstream = some q) : m.destroyStreams = .error (.freed q) := by
  obtain ⟨hsub, l, l', heq, hl⟩ := List.find?_eq_some_iff_append.mp hq
  have hmem : ∀ p ∈ l, p ∈ m.streams := fun p hp => by
    rw [heq]
    exact List.mem_append_left _ hp
  obtain ⟨m'', hd, f, -⟩ := destroy_roots h (l := l) (by rw [heq]; exact List.sublist_append_left _ _)
    fun p hp => not_isSubstream h (hmem p hp) (by simpa using hl p hp)
  -- the parent stands before it in the list
  obtain ⟨p, hp⟩ := Option.isSome_iff_exists.mp hsub
  obtain ⟨t, ht, htp⟩ := Option.bind_eq_some_iff.mp hp
  have hpar : m.HasParent q p := ⟨t, ht, htp⟩
  obtain ⟨hlt, s, hs, -⟩ := h.parent q t p ht htp
  have hpl : p ∈ l := by
    have hin := (h.added p).mp (by rw [hs]; rfl)
    have hsorted := h.sorted
    rw [heq] at hin hsorted
    rcases List.mem_append.mp hin with hin | hin
    · exact hin
    · rcases List.mem_cons.mp hin with rfl | hin
      · exact absurd hlt (lt_irrefl _)
      · have := (List.pairwise_cons.mp (List.pairwise_append.mp hsorted).2.1).1 p hin
        omega
  have hfree : m''.read q = .error (.freed q) := by
    rw [read, f q ⟨p, hpl, .single hpar⟩]
  unfold destroyStreams
  rw [heq, List.foldlM_append]
  refine except_bind_error hd ?_
  rw [List.foldlM_cons, hfree]
  rfl

/-- Without substreams the loop frees everything. -/
theorem destroyStreams_frees {m : ShamonStreams} (h : Ok m)
    (hnone : m.streams.find? m.isSubstream = none) :
    ∃ m', m.destroyStreams = .ok m' ∧ ∀ p, m'.heap p = none := by
  obtain ⟨m'', hd, f, k⟩ := destroy_roots h (List.Sublist.refl _) fun p hp =>
    not_isSubstream h hp (by simpa using List.find?_eq_none.mp hnone p hp)
  refine ⟨m'', hd, fun p => ?_⟩
  by_cases hp : p ∈ m.streams
  · exact f p ⟨p, hp, .refl⟩
  · have hgone : m.heap p = none := by
      rw [← Option.not_isSome_iff_eq_none, h.added]
      exact hp
    by_cases hb : ∃ q ∈ m.streams, m.Below p q
    · exact f p hb
    · rw [k p hb, hgone]

/-- `shamon_destroy` waits while a manager has not exited. After that it frees every stream once if
    none of them is a substream. Else it comes to the first substream of its list after that has been
    freed with its parent, and reads the `parent_stream` of the freed object. -/
theorem destroy_reads_freed {names : Text → Prop} {m : ShamonStreams}
    (hm : Reached names m none) :
    (¬ m.AllExited → m.destroy = .error .waits) ∧
    (m.AllExited →
      (∀ q, m.streams.find? m.isSubstream = some q → m.destroy = .error (.freed q)) ∧
      (m.streams.find? m.isSubstream = none →
        ∃ m', m.destroy = .ok m' ∧ ∀ p, m'.heap p = none)) := by
  have h := hm.ok
  rw [destroy_eq h]
  refine ⟨fun hw => ?_, fun he => ⟨fun q hq => ?_, fun hnone => ?_⟩⟩
  · rw [forM_thrdJoin_waits hw]
    rfl
  · exact except_bind_error (forM_thrdJoin he) (destroyStreams_reads_freed h hq)
  · obtain ⟨m', hd, hfree⟩ := destroyStreams_frees h hnone
    exact ⟨m', except_bind_ok.mpr ⟨(), forM_thrdJoin he, hd⟩, hfree⟩

theorem destroy_reads_freed_two : ∃ m : ShamonStreams, Reached (· = ['a']) m none ∧
    m.destroy = .error (.freed 1) := by
  obtain ⟨m, hr, hsub, ht⟩ := reached_substream
  refine ⟨m, hr, ((destroy_reads_freed hr).2 ?_).1 1 hsub⟩
  rw [AllExited, ht]
  decide

end ShamonStreams

end Vamos
