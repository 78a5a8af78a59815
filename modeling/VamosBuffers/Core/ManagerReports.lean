import Mathlib.Tactic
import VamosBuffers.Core.ManagerItems
import VamosBuffers.Schemes.Mirror

/-! What the source is told may be reclaimed. Two fields of the SHM buffer say so: `last_processed_id`,
    which the arbiter stores, and the table of dropped ranges, which the manager fills. An event that
    the arbiter has yet to see lies in the arbiter buffer or behind the tail of the SHM ring:

        processed      only ids up to that of the last item removed
        dropped        ids from drop_begin_id up to the last one consumed; the events before are
                       older, and no event is written while others are dropped

    Only the last report of a stream may be empty, and an empty range is what makes the next report
    cover too much; so none does. -/

namespace Vamos
open Schemes

namespace StreamMem

/-! ### Reports -/

/-- The ids of the range have been consumed, and no event in the arbiter buffer has one of them. -/
structure Behind (r : DroppedRange) (m : StreamMem) : Prop where
  consumed : r.last ≤ m.shm.ring.consumed
  items : ∀ x ∈ m.arb.pushed, x.isHole = false → ¬ (r.first ≤ x.id ∧ x.id ≤ r.last)

/-- What is reported has been dealt with. -/
structure Truthful (m : StreamMem) : Prop where
  table : ∀ r ∈ m.info.droppedRanges, r.last ≠ 0 → Behind r m
  processed : Covered m

/-- More has been consumed, and the new items are new. -/
theorem Behind.mono {r : DroppedRange} {m m' : StreamMem} (h : Behind r m)
    (hc : m.shm.ring.consumed ≤ m'.shm.ring.consumed) (hn : NewItems m m') : Behind r m' := by
  refine ⟨h.consumed.trans hc, fun x hx hh hr => ?_⟩
  obtain ⟨l, hp, hl⟩ := hn
  rw [hp] at hx
  rcases List.mem_append.mp hx with hx | hx
  · exact h.items x hx hh hr
  · rcases hl x hx with hx | hx
    · exact Bool.noConfusion (hh.symm.trans hx)
    · have := h.consumed
      omega

theorem Covered.mono {m m' : StreamMem} (h : Covered m) (hp : m.arb.pushed <+: m'.arb.pushed)
    (hc : m.arb.ring.consumed ≤ m'.arb.ring.consumed)
    (hi : m'.info.lastProcessedId = m.info.lastProcessedId) : Covered m' := by
  unfold Covered
  rw [hi]
  refine h.imp_right fun ⟨e, he, hle⟩ => ⟨e, ?_, hle⟩
  have hpre : m.arb.pushed.take m.arb.ring.consumed <+: m'.arb.pushed.take m'.arb.ring.consumed :=
    List.prefix_take_iff.mpr ⟨(List.take_prefix _ _).trans hp, by rw [List.length_take]; omega⟩
  exact hpre.subset he

theorem Truthful.mono {m m' : StreamMem} (h : Truthful m)
    (hc : m.shm.ring.consumed ≤ m'.shm.ring.consumed) (hn : NewItems m m')
    (ha : m.arb.ring.consumed ≤ m'.arb.ring.consumed) (hi : m'.info = m.info) : Truthful m' := by
  refine ⟨fun r hr h0 => ?_, h.processed.mono ?_ ha (by rw [hi])⟩
  · rw [hi] at hr
    exact (h.table r hr h0).mono hc hn
  · obtain ⟨l, hp, -⟩ := hn
    exact ⟨l, hp.symm⟩

/-- No range in the table is empty. -/
def Tidy (info : ShmInfo) : Prop :=
  ∀ r ∈ info.droppedRanges, r = ⟨0, 0⟩ ∨ 1 ≤ r.first ∧ r.first ≤ r.last

/-- Then a report puts itself into the table, and nothing else. -/
theorem Tidy.notified {info : ShmInfo} {b e : ℕ} (h : Tidy info) :
    ∀ r ∈ (info.notifyDropped b e).droppedRanges, r ∈ info.droppedRanges ∨ r = ⟨b, e⟩ := by
  intro x hx
  unfold ShmInfo.notifyDropped at hx
  dsimp only at hx
  split at hx
  case isTrue hext =>
    have hcur : info.droppedRanges.getD info.droppedRangesNext ⟨0, 0⟩ = ⟨0, 0⟩ ∨
        1 ≤ (info.droppedRanges.getD info.droppedRangesNext ⟨0, 0⟩).first ∧
        (info.droppedRanges.getD info.droppedRangesNext ⟨0, 0⟩).first ≤
          (info.droppedRanges.getD info.droppedRangesNext ⟨0, 0⟩).last := by
      rw [List.getD_eq_getElem?_getD]
      cases hx : info.droppedRanges[info.droppedRangesNext]? with
      | none => exact .inl rfl
      | some y => exact h y (List.mem_of_getElem? hx)
    generalize info.droppedRanges.getD info.droppedRangesNext ⟨0, 0⟩ = r at hext hcur hx
    have hfirst : r.first = b := by
      rcases hext with hf | hl
      · exact hf
      · rcases hcur with rfl | ⟨h1, h2⟩
        · exact absurd hl (by decide)
        · omega
    refine (List.mem_or_eq_of_mem_set hx).imp_right fun hx => ?_
    rw [hx, hfirst]
  case isFalse => exact List.mem_or_eq_of_mem_set hx

theorem Tidy.notifyDropped {info : ShmInfo} {b e : ℕ} (h : Tidy info) (hb : 1 ≤ b) (hbe : b ≤ e) :
    Tidy (info.notifyDropped b e) := by
  intro r hr
  rcases h.notified r hr with hr | rfl
  · exact h r hr
  · exact .inr ⟨hb, hbe⟩

/-! ### Roles -/

/-- The table of dropped ranges is as it was. -/
def SameTable (m m' : StreamMem) : Prop := m'.info.droppedRanges = m.info.droppedRanges

/-- What the source may change; not the reports. -/
structure SilentSource (m m' : StreamMem) : Prop extends SourceStep m m' where
  info : m'.info = m.info

/-- What the manager may change; the table only by `notify_dropped`. -/
structure ReportStep (l : StreamAcc) (m m' : StreamMem) : Prop extends ItemStep m m' where
  quiet : l ≠ .notify → m'.info = m.info
  processed : m'.info.lastProcessedId = m.info.lastProcessedId

/-- What the arbiter may change; of the reports, only the last processed id, which grows. -/
structure ProcessStep (l : StreamAcc) (m m' : StreamMem) : Prop extends ArbiterStep m m' where
  quiet : l ≠ .setLastProcessedId → m'.info = m.info
  table : SameTable m m'
  processed : m.info.lastProcessedId ≤ m'.info.lastProcessedId

/-- What the manager relies on. -/
structure ForReporter (m m' : StreamMem) : Prop extends ForManager m m' where
  table : SameTable m m'

theorem ForReporter.refl (m : StreamMem) : ForReporter m m := ⟨.refl m, rfl⟩

theorem ForReporter.trans {m m' m'' : StreamMem} (h : ForReporter m m') (h' : ForReporter m' m'') :
    ForReporter m m'' := ⟨h.toForManager.trans h'.toForManager, Eq.trans h'.table h.table⟩

theorem Tidy.same {m m' : StreamMem} (h : Tidy m.info) (ht : SameTable m m') : Tidy m'.info := by
  unfold Tidy
  rw [ht]; exact h

/-- The invariant. -/
def ReportInv (m : StreamMem) : Prop := ItemsInv m ∧ Truthful m

def supplierRole : Role StreamMem StreamAcc where
  rely := ForSource
  guar _ := SilentSource
  refl := ForSource.refl
  trans := ForSource.trans

/-- The manager, past failed assertions. -/
def droppingRole : Role StreamMem StreamAcc where
  rely := ForReporter
  guar := ReportStep
  refl := ForReporter.refl
  trans := ForReporter.trans
  lenient := True

/-- The reader of the arbiter buffer, past failed assertions. -/
def processorRole : Role StreamMem StreamAcc where
  rely m m' := Queue.ProducerStep m.arb m'.arb
  guar := ProcessStep
  refl := arbKnown_refl
  trans := arbKnown_trans
  lenient := True

/-! ### Accesses that report nothing -/

/-- Nothing is reported. -/
def Silent (_ : StreamAcc) (f : StreamMem → StreamMem) : Prop := ∀ m, (f m).info = m.info

section Silent

theorem silent_onShm {α : Type} (p : QueueProg Event α) : (onShm p).Each Silent :=
  Prog.each_zoom (fun _ _ _ => rfl) p

theorem silent_onArb {α : Type} (p : QueueProg Event α) : (onArb p).Each Silent :=
  Prog.each_zoom (fun _ _ _ => rfl) p

theorem silent_get {α : Type} (l : StreamAcc) (f : StreamMem → α) : (get l f).Each Silent :=
  Prog.each_access fun _ => rfl

theorem silent_set (l : StreamAcc) (f : Dropping → Dropping) : (set l f).Each Silent :=
  Prog.each_access fun _ => rfl

theorem silent_check (p : Prop) [Decidable p] : (check p).Each Silent := Prog.each_ofChk _

theorem silent_checkAlive : checkAlive.Each Silent :=
  (silent_get _ _).bind fun _ => silent_check _

theorem silent_shmPush (e : Event) : (shmPush e).Each Silent := by
  refine silent_checkAlive.bind fun _ => (silent_onShm _).bind fun _ => (silent_check _).bind
    fun _ => (silent_checkAlive.bind fun _ => silent_onShm _).bind fun r => ?_
  cases r with
  | none => exact Prog.each_ret _
  | some p =>
    exact (silent_onShm _).bind fun _ => (silent_checkAlive.bind fun _ => silent_onShm _).bind
      fun _ => Prog.each_ret _

theorem silent_shmDestroy : shmDestroy.Each Silent := Prog.each_access fun _ => rfl

theorem silent_isReady : isReady.Each Silent := by
  refine (silent_get _ _).bind fun destroyed => ?_
  split
  · exact (silent_onShm _).bind fun _ => Prog.each_ret _
  · exact Prog.each_ret _

theorem silent_consume : consume.Each Silent := (silent_onShm _).bind fun _ => Prog.each_ret _

theorem silent_getEvent (w : Spin) : (getEvent w).Each Silent := by
  refine (silent_onShm _).bind fun r => ?_
  cases r with
  | some p => exact Prog.each_ret _
  | none =>
    dsimp only
    split
    · split
      · exact Prog.each_ret _
      · refine silent_isReady.bind fun ready => ?_
        split <;> exact Prog.each_ret _
    · exact Prog.each_ret _

theorem silent_nextEvent (last : ℕ) (w : Spin) : (nextEvent last w).Each Silent := by
  refine (silent_getEvent w).bind fun g => ?_
  cases g with
  | again w' => exact Prog.each_ret _
  | ended => exact Prog.each_ret _
  | event p =>
    exact (silent_onShm _).bind fun _ => (silent_check _).bind fun _ => (silent_set _ _).bind
      fun _ => (silent_get _ _).bind fun _ => (silent_check _).bind fun _ => Prog.each_ret _

theorem silent_freeSpace : freeSpace.Each Silent := silent_onArb _

theorem silent_checkFree : checkFree.Each Silent :=
  silent_freeSpace.bind fun _ => silent_check _

theorem silent_aboveThreshold : aboveThreshold.Each Silent :=
  (silent_get _ _).bind fun _ => (silent_check _).bind fun _ => silent_freeSpace.bind
    fun _ => Prog.each_ret _

theorem silent_startDropping (e : Event) : (startDropping e).Each Silent :=
  (silent_set _ _).bind fun _ => (silent_get _ _).bind fun _ => (silent_check _).bind
    fun _ => (silent_set _ _).bind fun _ => (silent_set _ _).bind fun _ => (silent_set _ _).bind
      fun _ => silent_consume.bind fun _ => Prog.each_ret _

theorem silent_pushHole (id : ℕ) : (pushHole id).Each Silent :=
  (silent_get _ _).bind fun _ => (silent_check _).bind fun _ => (silent_set _ _).bind
    fun _ => (silent_get _ _).bind fun _ => silent_onArb _

theorem silent_putEvent (p : ℕ) (out : Option ℕ) : (putEvent p out).Each Silent := by
  cases out with
  | none => exact (silent_check _).bind fun _ => Prog.each_ret _
  | some out =>
    exact (silent_onShm _).bind fun _ => (silent_onArb _).bind fun _ => (silent_onArb _).bind
      fun _ => silent_consume.bind fun _ => Prog.each_ret _

end Silent

/-- What the manager does without a report keeps the reports true, and the table as it is. -/
theorem quietly {α : Type} {p : StreamProg α} {Q : α → StreamMem → Prop} {m : StreamMem}
    (hp : p.Each Silent) (h : Safe ItemsInv itemRole Q p m) :
    Safe ReportInv droppingRole (fun a m' => Q a m' ∧ SameTable m m') p m := by
  have hs := Safe.each (I := ItemsInv) (J := Truthful) (ρ := itemRole) (π := droppingRole)
    (fun m m' (hr : ForReporter m m') => hr.toForManager) (fun _ _ _ => trivial) (fun _ => trivial)
    (fun l f m hs _ ht _ hg => ?_) hp h
  · refine Safe.keeps (F := SameTable m)
      (fun m' m'' ht (hr : ForReporter m' m'') => Eq.trans hr.table ht) (fun l f m' hs ht => ?_) hp rfl
      hs
    show (f m').info.droppedRanges = _
    rw [hs m']
    exact ht
  · have hg : ItemStep m (f m) := hg
    refine ⟨⟨hg, fun _ => hs m, by rw [hs m]⟩, ht.mono hg.shm.ring.consumed hg.items ?_ (hs m)⟩
    exact hg.arb.ring.consumed.ge

/-- What the source does keeps them true as well. -/
theorem supplies_quietly {α : Type} {p : StreamProg α} {Q : α → StreamMem → Prop} {m : StreamMem}
    (hp : p.Each Silent) (h : Safe ItemsInv sourceRole Q p m) :
    Safe ReportInv supplierRole Q p m := by
  refine Safe.each (I := ItemsInv) (J := Truthful) (ρ := sourceRole) (π := supplierRole)
    (fun _ _ hr => hr) (fun _ _ _ => trivial) id (fun l f m hs _ ht _ hg => ?_) hp h
  have hg : SourceStep m (f m) := hg
  refine ⟨⟨hg, hs m⟩, ht.mono hg.shm.ring.consumed.ge (.of_eq (by rw [hg.arb])) ?_ (hs m)⟩
  rw [hg.arb]

/-! ### Reports -/

/-- A load of a field. -/
theorem report_get {α β : Type} {l : StreamAcc} {g : StreamMem → α} {k : α → StreamProg β}
    {Q : β → StreamMem → Prop} {m : StreamMem} (hm : ReportInv m)
    (h : ∀ m', Held m.drop m m' → SameTable m m' → ReportInv m' →
      Safe ReportInv droppingRole Q (k (g m')) m') :
    Safe ReportInv droppingRole Q (get l g >>= k) m := by
  refine Safe.access_bind fun m1 h1 i1 => ⟨⟨Carries.load ItemsInv (ρ := itemRole) l m1, fun _ => rfl,
    rfl⟩, i1, ?_⟩
  have h1 : ForReporter m m1 := h1
  exact h m1 (h1.held hm.1) h1.table i1

/-- A store to a field of the manager. -/
theorem report_set {β : Type} {l : StreamAcc} {g : Dropping → Dropping} {k : Unit → StreamProg β}
    {Q : β → StreamMem → Prop} {m : StreamMem} (hm : ReportInv m)
    (hg : ∀ d, (g d).dropSpaceThreshold = d.dropSpaceThreshold)
    (h : ∀ m', Held (g m.drop) m m' → SameTable m m' → ReportInv m' →
      Safe ReportInv droppingRole Q (k ()) m') :
    Safe ReportInv droppingRole Q (set l g >>= k) m :=
  Safe.bind hm ((quietly (silent_set l g) (itemStore_safe hm.1 hg)).mono
    fun _ m' i' ⟨h', ht⟩ => h m' h' ht i')

/-- `notify_dropped` of a range that lies behind. -/
theorem report_dropped_safe {b e : ℕ} {m : StreamMem} (hm : ReportInv m) (ht : Tidy m.info)
    (hr : Behind ⟨b, e⟩ m) :
    Safe ReportInv droppingRole
      (fun _ m' => Held m.drop m m' ∧ (1 ≤ b → b ≤ e → Tidy m'.info)) (notifyDropped b e) m := by
  refine Safe.access fun m1 h1 i1 => ?_
  have h1 : ForReporter m m1 := h1
  have hh1 := h1.held hm.1
  have ht1 := ht.same h1.table
  have hr1 : Behind ⟨b, e⟩ m1 := hr.mono hh1.shm.consumed.ge (.of_eq hh1.arb.pushed)
  obtain ⟨hg, hi⟩ := Carries.notify (ρ := itemRole) (m1.info.notifyDropped b e) i1.1
  have hproc : (m1.info.notifyDropped b e).lastProcessedId = m1.info.lastProcessedId := by
    unfold ShmInfo.notifyDropped
    dsimp only
    split <;> rfl
  have htrue : Truthful { m1 with info := m1.info.notifyDropped b e } := by
    refine ⟨fun r hr h0 => ?_, i1.2.processed.mono List.prefix_rfl le_rfl hproc⟩
    rcases ht1.notified r hr with hr | rfl
    · exact (i1.2.table r hr h0).mono le_rfl (.of_eq rfl)
    · exact hr1.mono le_rfl (.of_eq rfl)
  refine ⟨⟨hg, fun h => absurd rfl h, hproc⟩, ⟨hi, htrue⟩, fun m2 h2 _ => ?_⟩
  have h2 : ForReporter _ m2 := h2
  have hh : Held m1.drop m1 { m1 with info := m1.info.notifyDropped b e } :=
    ⟨⟨.of_eq rfl rfl, .of_eq rfl, rfl⟩, fun _ h => h⟩
  exact ⟨hh1.drop ▸ (hh1.trans hh).trans (h2.held hi), fun hb hbe =>
    (ht1.notifyDropped hb hbe).same h2.table⟩

end StreamMem

end Vamos
