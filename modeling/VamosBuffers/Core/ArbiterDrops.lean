import Mathlib.Tactic
import VamosBuffers.Core.QueueContent
import VamosBuffers.Core.ArbiterRuns

/-! What `drop` and `drop_older_than` do to the items of the arbiter buffer when the call runs alone.

        content   e₀ e₁ … e_{r-1} │ e_r …            the first r items go
                  drop(k)               r = min(k, size)
                  drop_older_than(id)   r = the number of items with id up to `id`

    `drop(k)` looks for the item with index `k - 1`, and for `k = 0` that index is the largest
    there is. The binary search of `drop_older_than` is taken without its assertions, as long as it
    goes on. -/

namespace Vamos
open Schemes

namespace StreamMem

/-- A call on the arbiter buffer, run alone. -/
@[simp] theorem run_onArb {α : Type} (p : QueueProg Event α) (m : StreamMem) :
    (onArb p).run m = ((p.run m.arb).1, { m with arb := (p.run m.arb).2 }) :=
  Prog.run_zoom (L := arbLens) (fun _ _ _ => rfl) _ p m

@[simp] theorem run_setLastProcessedId (id : ℕ) (m : StreamMem) :
    (setLastProcessedId id).run m =
      ((), { m with info := { m.info with lastProcessedId := id } }) := by
  simp [setLastProcessedId, get, check]

/-- There is room for the count of items in the index arithmetic of `drop`. -/
theorem count_fits {q : Queue Event} {n : ℕ} (hq : Queue.QueueInv q) (hsize : 16 ≤ q.elemSize)
    (hn : q.ring.Avail n) : q.ring.capacity + n < 2 ^ 64 - 1 := by
  have h1 := hn.le_items.trans hq.items_le
  have h2 := Nat.mul_le_mul_left (q.capacity + 1) hsize
  have h3 := hq.fits
  have h4 := hq.slots
  omega

/-! ### `drop` -/

/-- What `drop(k)` is to do: the `min(k, size)` oldest items are gone, and the id of the last of them
    has been reported. -/
structure Drops (k : ℕ) (m : StreamMem) (r : ℕ) (m' : StreamMem) : Prop where
  num : r = min k m.arb.content.length
  content : m'.arb.content = m.arb.content.drop r
  silent : r = 0 → m'.info = m.info
  reports : 0 < r → ∃ e, m.arb.content[r - 1]? = some e ∧
    m'.info = { m.info with lastProcessedId := e.id }

/-- It does so for the number that `--k` and `++k` make of `k`. -/
theorem bufferDrop_run {m : StreamMem} (hq : Queue.QueueInv m.arb) (hsize : 16 ≤ m.arb.elemSize)
    (k : ℕ) :
    Queue.QueueInv ((bufferDrop k).run m).2.arb ∧
      Queue.ConsumerMoves m.arb ((bufferDrop k).run m).2.arb ∧
      Drops ((k + (2 ^ 64 - 1)) % 2 ^ 64 + 1) m ((bufferDrop k).run m).1 ((bufferDrop k).run m).2 := by
  unfold bufferDrop
  generalize (k + (2 ^ 64 - 1)) % 2 ^ 64 = j
  obtain ⟨hi, ⟨hrs, hsome, -⟩, hmv, hcons⟩ := Queue.asks_run hq (fun _ _ => trivial)
    (fun _ _ _ hg => hg) (Queue.peekAtmostAt_safe (N := 0) (k := j) hq hq.ring.avail_zero)
  obtain ⟨hpk, hun⟩ := Queue.peekAtmostAt_run hq j
  simp only [Prog.run_bind, run_onArb]
  generalize (Queue.peekAtmostAt j).run m.arb = r at hi hrs hsome hmv hcons hpk hun ⊢
  obtain ⟨⟨i, r⟩, q⟩ := r
  dsimp only at hi hrs hsome hmv hcons hpk hun ⊢
  cases r with
  | none =>
    obtain ⟨-, hnil⟩ := hpk
    simp only [Prog.pure_eq_ret, Prog.run_ret]
    refine ⟨hi, hmv, ?_, ?_, fun _ => rfl, fun h => absurd h (lt_irrefl 0)⟩
    · rw [hnil, List.length_nil, Nat.min_zero]
    · rw [List.drop_zero]; exact hun.content
  | some p =>
    obtain ⟨hi', -, -, e, he, hdata⟩ := hpk
    obtain ⟨ha, -, -, -⟩ := hsome p rfl
    have hfit := count_fits hi (hrs.elemSize ▸ hsize) ha
    have hword : (i + 1) % 2 ^ 64 = i + 1 := Nat.mod_eq_of_lt (by omega)
    obtain ⟨hlt, -⟩ := List.getElem?_eq_some_iff.mp he
    obtain ⟨hd, hmv', hcont⟩ := Queue.drop_run hi ha (Nat.succ_pos i) le_rfl hfit
    simp only [Queue.readSlot, Prog.run_bind, run_onArb, Prog.run_load, run_setLastProcessedId,
      Prog.pure_eq_ret, Prog.run_ret, hword]
    refine ⟨hd, hmv.trans hmv', by omega, ?_, fun h => absurd h (Nat.succ_ne_zero i),
      fun _ => ⟨e, he, ?_⟩⟩
    · rw [← hun.content]; exact hcont
    · have hx : e = q.data p := by rw [hun.data]; exact hdata
      rw [hx]

/-- `drop(k)` does what it is to do for every content, position and stale head, unless `k` is 0 and
    the buffer holds something: then everything goes. -/
theorem bufferDrop_iff {m : StreamMem} (hq : Queue.QueueInv m.arb) (hsize : 16 ≤ m.arb.elemSize)
    {k : ℕ} (hk : k < 2 ^ 64) :
    Queue.QueueInv ((bufferDrop k).run m).2.arb ∧
      (Drops k m ((bufferDrop k).run m).1 ((bufferDrop k).run m).2 ↔
        0 < k ∨ m.arb.content = []) := by
  obtain ⟨hi, -, hd⟩ := bufferDrop_run hq hsize k
  refine ⟨hi, ?_⟩
  have hlen : m.arb.content.length < 2 ^ 64 := by
    rw [hq.content_length]
    have := hq.ring.written_lt
    have := hq.ring.base.max
    omega
  have hnum := hd.num
  constructor
  · intro h
    rcases Nat.eq_zero_or_pos k with rfl | h0
    · have := h.num
      exact .inr (List.length_eq_zero_iff.mp (by omega))
    · exact .inl h0
  · intro h
    refine ⟨?_, hd.content, hd.silent, hd.reports⟩
    rcases h with h0 | hnil
    · omega
    · rw [hnil, List.length_nil] at hnum ⊢
      omega

/-- A small buffer into which one item was pushed. -/
def oneItem : StreamMem := ((onArb (Queue.push ⟨9, 1, 0⟩)).run small.mem).2

theorem oneItem_inv : Queue.QueueInv oneItem.arb := by
  have hs : Queue.QueueInv small.mem.arb := (Queue.init_inv small.ok).1
  obtain ⟨hp, -⟩ := Queue.push_run (x := (⟨9, 1, 0⟩ : Event)) hs (by decide)
  rw [oneItem, run_onArb]
  exact hp

/-- `drop(3)` removes the one item and reports its id. -/
theorem bufferDrop_iff_one : oneItem.arb.content = [⟨9, 1, 0⟩] ∧ ((bufferDrop 3).run oneItem).1 = 1 ∧
    Drops 3 oneItem ((bufferDrop 3).run oneItem).1 ((bufferDrop 3).run oneItem).2 :=
  ⟨rfl, rfl, (bufferDrop_iff oneItem_inv (by decide) (by decide)).2.mpr (.inl (by decide))⟩

/-- `drop(0)` removes it, too. -/
theorem bufferDrop_zero : Queue.QueueInv oneItem.arb ∧ oneItem.arb.content = [⟨9, 1, 0⟩] ∧
    ((bufferDrop 0).run oneItem).1 = 1 ∧ ((bufferDrop 0).run oneItem).2.arb.content = [] ∧
    ¬ Drops 0 oneItem ((bufferDrop 0).run oneItem).1 ((bufferDrop 0).run oneItem).2 :=
  ⟨oneItem_inv, rfl, rfl, rfl, fun h => absurd h.num (by decide)⟩

/-! ### `drop_older_than` -/

/-- What `drop_older_than(id)` is to do: the items with ids up to `id`, `k` of them, are gone. -/
structure DropsUpto (id : ℕ) (m : StreamMem) (k : ℕ) (m' : StreamMem) : Prop where
  num : k = m.arb.content.countP fun e => decide (e.id ≤ id)
  content : m'.arb.content = m.arb.content.drop k
  gone : ∀ e ∈ m.arb.content.take k, e.id ≤ id
  left : ∀ e ∈ m'.arb.content, id < e.id

/-- `k` is where `id` belongs among the items. -/
structure Divides (id k : ℕ) (items : List Event) : Prop where
  le : k ≤ items.length
  below : ∀ e ∈ items.take k, e.id ≤ id
  above : ∀ e ∈ items.drop k, id < e.id

theorem Divides.count {id k : ℕ} {items : List Event} (h : Divides id k items) :
    items.countP (fun e => decide (e.id ≤ id)) = k := by
  rw [← List.take_append_drop k items, List.countP_append,
    List.countP_eq_length.mpr fun e he => by simpa using h.below e he,
    List.countP_eq_zero.mpr fun e he => by simpa using h.above e he, List.length_take,
    min_eq_left h.le, Nat.add_zero]

/-- The search run alone over items with increasing ids. -/
theorem olderNumBy_run {β : Type}
    {search : (events elemSize skip n top : ℕ) → QueueProg Event β} {found : ℕ → β} {id : ℕ}
    {q : Queue Event} (hq : Queue.QueueInv q) (hsize : 16 ≤ q.elemSize)
    (hids : q.content.Pairwise fun a b => a.id < b.id)
    (hfind : Queue.Finds 0 id q.capacity search found) :
    ∃ k q', (Queue.olderNumBy search found id).run q = (found k, q') ∧ Queue.QueueInv q' ∧
      q'.elemSize = q.elemSize ∧ q'.content = q.content ∧ q'.ring.Avail k ∧
      Divides id k q.content := by
  obtain ⟨hi, ⟨n, ids, k, hs, hall, hk, ho⟩, hmv, hcons⟩ := Queue.asks_run
    (ρ := Queue.releaseRole 0) hq (fun _ _ => trivial) (fun _ _ _ hg => hg)
    (Queue.olderNumBy_safe hq (by omega) hfind)
  generalize (Queue.olderNumBy search found id).run q = r at hi hs hk hmv hcons ⊢
  obtain ⟨r, q'⟩ := r
  dsimp only at hi hs hk hmv hcons
  subst hk
  have hcont : q'.content = q.content := by
    rw [hmv.content (n := 0) (by omega), List.drop_zero]
  have hlen := hq.content_length
  have hw : q'.ring.written = q.ring.written := hmv.ring.written
  have hle := hs.avail.le_items
  obtain rfl : n = q.content.length := by omega
  -- the ids that the search saw are those of the items
  have hid : ∀ j (hj : j < q.content.length), (q.content.get ⟨j, hj⟩).id = ids j := by
    intro j hj
    obtain ⟨e, he, hej⟩ := hs.event j hj
    have hce : q.content[j]? = some e := by
      rw [← hcont, Queue.content, List.getElem?_drop]
      exact he
    obtain ⟨_, rfl⟩ := List.getElem?_eq_some_iff.mp hce
    exact hej
  have hinc : Queue.Increase ids q.content.length := by
    intro i j hij hj
    have h := List.pairwise_iff_get.mp hids ⟨i, by omega⟩ ⟨j, hj⟩ hij
    rw [hid, hid] at h
    exact h
  refine ⟨k, q', rfl, hi, hmv.elemSize, hcont, hs.avail.mono ho.le, ho.le, fun e he => ?_,
    fun e he => ?_⟩
  · obtain ⟨i, hi', rfl⟩ := List.mem_take_iff_getElem.mp he
    have := ho.below hinc i (by omega)
    rw [← hid i (by omega)] at this
    exact this
  · obtain ⟨i, hi', rfl⟩ := List.mem_drop_iff_getElem.mp he
    have := ho.above hinc (k + i) (by omega) (by omega)
    rw [← hid (k + i) (by omega)] at this
    exact this

/-- What follows the search. -/
theorem dropFound_run {β : Type} {g : ℕ → β} {id k : ℕ} {m : StreamMem} {q : Queue Event}
    (hq : Queue.QueueInv q) (hsize : 16 ≤ q.elemSize) (hcont : q.content = m.arb.content)
    (ha : q.ring.Avail k) (hk : Divides id k m.arb.content) :
    ∃ m', (if 0 < k then do
        onArb (Queue.drop k)
        setLastProcessedId id
        pure (g k)
      else pure (g k) : StreamProg β).run { m with arb := q } = (g k, m') ∧
      Queue.QueueInv m'.arb ∧ DropsUpto id m k m' := by
  have done : ∀ m', m'.arb.content = m.arb.content.drop k → DropsUpto id m k m' := fun m' h =>
    ⟨hk.count.symm, h, hk.below, fun e he => hk.above e (h ▸ he)⟩
  by_cases h0 : 0 < k
  · obtain ⟨hi, -, hc⟩ := Queue.drop_run hq ha h0 le_rfl (count_fits hq hsize ha)
    rw [if_pos h0]
    simp only [Prog.run_bind, run_onArb, run_setLastProcessedId, Prog.pure_eq_ret, Prog.run_ret]
    exact ⟨_, rfl, hi, done _ (by rw [← hcont]; exact hc)⟩
  · rw [if_neg h0]
    refine ⟨_, rfl, hq, done _ ?_⟩
    rw [Nat.eq_zero_of_not_pos h0, List.drop_zero]
    exact hcont

/-- Without its assertions, `drop_older_than` comes to an end for every content, position and id: its
    search takes no more turns than the buffer has slots. Over increasing ids it then has removed
    exactly the items with ids up to `id`. -/
theorem dropOlderThan_exact {m : StreamMem} (hq : Queue.QueueInv m.arb)
    (hsize : 16 ≤ m.arb.elemSize) (hids : m.arb.content.Pairwise fun a b => a.id < b.id) (id : ℕ)
    {fuel : ℕ} (hf : m.arb.capacity ≤ fuel) :
    ∃ k m', (dropOlderThanLoop fuel id).run m = (some k, m') ∧ Queue.QueueInv m'.arb ∧
      DropsUpto id m k m' := by
  obtain ⟨k, q, hr, hi, he, hcont, ha, hk⟩ := olderNumBy_run hq hsize hids
    (Queue.searchLoop_finds hf : Queue.Finds 0 id _ _ _)
  unfold dropOlderThanLoop Queue.olderNumLoop
  rw [Prog.run_bind, run_onArb, hr]
  obtain ⟨m', hm', h⟩ := dropFound_run (g := some) hi (he ▸ hsize) hcont ha hk
  exact ⟨k, m', hm', h⟩

/-- So it is with the assertions, where they are passed over. -/
theorem dropOlderThan_run {m : StreamMem} (hq : Queue.QueueInv m.arb)
    (hsize : 16 ≤ m.arb.elemSize) (hids : m.arb.content.Pairwise fun a b => a.id < b.id) (id : ℕ) :
    ∃ k m', (dropOlderThan id).run m = (k, m') ∧ Queue.QueueInv m'.arb ∧ DropsUpto id m k m' := by
  obtain ⟨k, q, hr, hi, he, hcont, ha, hk⟩ := olderNumBy_run hq hsize hids
    (Queue.searchOlder_finds : Queue.Finds 0 id _ _ _)
  unfold dropOlderThan
  rw [Queue.olderNum, Prog.run_bind, run_onArb, hr]
  obtain ⟨m', hm', h⟩ := dropFound_run (g := fun k => k) hi (he ▸ hsize) hcont ha hk
  exact ⟨k, m', hm', h⟩

/-- An item more, if there is room for it. -/
def withItem (m : StreamMem) (x : Event) : StreamMem := ((onArb (Queue.push x)).run m).2

theorem withItem_inv {m : StreamMem} (hq : Queue.QueueInv m.arb) {x : Event}
    (hx : Slot.size x ≤ m.arb.elemSize) : Queue.QueueInv (m.withItem x).arb := by
  rw [withItem, run_onArb]
  exact (Queue.push_run hq hx).1

/-- The items 1, 2 and 3, of which the first two are removed, and then 4 and 5: the last one lies at the
    start of the storage. -/
def wrappedItems : StreamMem :=
  let m := (oneItem.withItem ⟨9, 2, 0⟩).withItem ⟨9, 3, 0⟩
  (((bufferDrop 2).run m).2.withItem ⟨9, 4, 0⟩).withItem ⟨9, 5, 0⟩

theorem wrappedItems_inv : Queue.QueueInv wrappedItems.arb := by
  have h3 := withItem_inv (withItem_inv oneItem_inv (x := ⟨9, 2, 0⟩) (by decide)) (x := ⟨9, 3, 0⟩)
    (by decide)
  have hd := (bufferDrop_run h3 (by decide) 2).1
  exact withItem_inv (withItem_inv hd (x := ⟨9, 4, 0⟩) (by decide)) (by decide)

/-- The items 3, 4 and 5, and `drop_older_than(4)`: the search finds the id in the middle. -/
theorem dropOlderThan_exact_wrapped :
    wrappedItems.arb.content = [⟨9, 3, 0⟩, ⟨9, 4, 0⟩, ⟨9, 5, 0⟩] ∧
    wrappedItems.arb.data 0 = ⟨9, 5, 0⟩ ∧
    ((dropOlderThanLoop 3 4).run wrappedItems).1 = some 2 ∧
    ∃ k m', (dropOlderThanLoop 3 4).run wrappedItems = (some k, m') ∧ Queue.QueueInv m'.arb ∧
      DropsUpto 4 wrappedItems k m' :=
  ⟨rfl, rfl, rfl, dropOlderThan_exact wrappedItems_inv (by decide) (by decide) 4 (le_refl 3)⟩

end StreamMem

end Vamos
