import Mathlib.Tactic
import VamosBuffers.Core.ShamonStreams

/-! Dynamic sub-buffers are all discovered: the loop of `shamon_get_next_ev` in `src/core/shamon.c`.

        work = Σ streams still to come below a stream      (a forest of keys, cut off at the depth
                                                            that the longest key gives)

    A turn that finds a new sub-buffer takes one from the work and adds one to the list, so the loop
    ends; a call finds something at each stream that lacks a sub-buffer, so the calls get to the end
    of the work. No turn stops over a name that is taken: a key tells what it was made of. And as long
    as there are no more than ten streams, the vector of the arbiter buffers does not move. -/

namespace Vamos
open Schemes

namespace ShamonStreams

/-! ### Names -/

/-- The user's streams have names that the user gives. -/
def Rooted (names : Text → Prop) (m : ShamonStreams) : Prop :=
  ∀ p s, m.heap p = some s → s.parentStream = none → names s.name

theorem Rooted.grow {names : Text → Prop} {m : ShamonStreams} (h : Rooted names m) {t : Stream}
    {c : ℕ} (ht : t.parentStream = none → names t.name) : Rooted names (m.grown t c) := by
  intro q s hs hp
  rcases heap_grown_cases hs with ⟨rfl, rfl⟩ | ⟨-, s0, hs0, l, -⟩
  · exact ht hp
  · rw [l.name]
    exact h q s0 hs0 (l.parentStream.symm.trans hp)

theorem Rooted.discoverAt {names : Text → Prop} {m m' : ShamonStreams} {i : ℕ} (h : Rooted names m)
    (hi : i < m.streams.length) (hm : m.discoverAt i = .ok m') : Rooted names m' := by
  obtain ⟨p, s, b, -, hs, hb, ⟨-, rfl⟩ | ⟨hlt, sb, -, c, hsb, -, hnames, rfl⟩⟩ :=
    discoverAt_cases hi hm
  · exact h
  · have hg : Rooted names (m.grown (nextSub s p sb) c) :=
      h.grow fun hp => absurd hp (Option.some_ne_none p)
    exact hg

theorem Reached.rooted {names : Text → Prop} {m : ShamonStreams} {at_ : Option ℕ}
    (h : Reached names m at_) : Rooted names m := by
  induction h with
  | create =>
    intro p s hs
    cases hs
  | createBuffer _ _ _ _ ih => exact ih
  | announce _ _ ih => exact ih
  | setDestroyed _ _ ih => exact ih
  | managerExits _ _ _ _ _ ih => exact ih
  | @add _ _ name key holeEventSize c _ hname hm ih =>
    obtain ⟨b, hb, hnames, rfl⟩ := addNew_cases hm
    exact ih.grow (t := ⟨name, key, b.elemSize, holeEventSize, 0, none, []⟩) (c := c) fun _ => hname
  | enter _ ih => exact ih
  | turn _ hi hm ih => exact ih.discoverAt hi hm
  | leave _ _ ih => exact ih

/-- The name of the next substream is not taken: it could only be one of the same parent under the
    same number. -/
theorem next_name_free {names : Text → Prop} (hnames : ∀ n, names n → ∀ k i, n ≠ subKey k i)
    {m : ShamonStreams} (h : Ok m) (hr : Rooted names m) {p q : ℕ} {s t : Stream}
    (hs : m.heap p = some s) (ht : m.heap q = some t) :
    t.name ≠ subKey s.name (s.substreamsNo + 1) := by
  intro hname
  cases hp : t.parentStream with
  | none => exact hnames t.name (hr q t ht hp) _ _ hname
  | some p' =>
    obtain ⟨-, s', hs', hq⟩ := h.parent q t p' ht hp
    obtain ⟨j, hj, hjq⟩ := List.mem_iff_getElem.mp hq
    obtain ⟨u, hu, -, -, hun⟩ := h.sub p' s' j q hs' (by rw [← hjq]; exact List.getElem?_eq_getElem hj)
    cases ht.symm.trans hu
    obtain ⟨hss, hjno⟩ := subKey_inj (hun.symm.trans hname)
    cases h.names p' p s' s hs' hs hss
    cases hs.symm.trans hs'
    rw [h.count p s hs] at hj
    omega

/-- While the vector has not moved, all arbiter buffers are there. -/
theorem bufferAt_of_ten {m : ShamonStreams} (h : Ok m) (hten : m.streams.length ≤ 10) {i : ℕ}
    (hi : i < m.streams.length) : ∃ buffer, m.bufferAt i = .ok buffer := by
  have hi' : i < m.buffers.length := h.buffers.length_eq ▸ hi
  have hget : m.buffers[i]? = some m.buffers[i] := List.getElem?_eq_getElem hi'
  have hkept : m.buffers[i] ≠ none := fun hn => by
    have := (h.kept i _ hget).mp hn
    omega
  obtain ⟨buffer, hb⟩ := Option.ne_none_iff_exists'.mp hkept
  exact ⟨buffer, bufferAt_ok.mpr (by rw [hget, hb])⟩

/-- No turn stops if every announced sub-buffer is there. -/
theorem discoverAt_returns {names : Text → Prop} (hnames : ∀ n, names n → ∀ k i, n ≠ subKey k i)
    {m : ShamonStreams} (h : Ok m) (hr : Rooted names m) (ha : Announced m.shm)
    (hten : m.streams.length ≤ 10) {i : ℕ} (hi : i < m.streams.length) :
    ∃ m', m.discoverAt i = .ok m' := by
  have hp : m.streams[i]? = some m.streams[i] := List.getElem?_eq_getElem hi
  obtain ⟨s, hs⟩ := Option.isSome_iff_exists.mp ((h.added _).mpr (List.getElem_mem hi))
  obtain ⟨b, hb, -⟩ := h.buffer _ s hs
  rw [discoverAt, hp]
  by_cases hle : b.subbuffersNo ≤ s.substreamsNo
  · exact ⟨m, except_bind_ok.mpr ⟨_, createSubstream_none hs hb hle, rfl⟩⟩
  · obtain ⟨hsub, hno⟩ := ha s.key b (s.substreamsNo + 1) hb (by omega) (by omega)
    obtain ⟨sb, hsb⟩ := Option.isSome_iff_exists.mp hsub
    obtain ⟨buffer, hbuf⟩ := bufferAt_of_ten h hten hi
    obtain ⟨m', hm'⟩ := addStream_returns (m := (m.adopt m.streams[i] s).alloc
      (nextSub s m.streams[i] sb)) (p := m.next) (Function.update_self ..) (fun q hq => by
        obtain ⟨t, ht⟩ := Option.isSome_iff_exists.mp ((h.added q).mpr hq)
        have hfree := next_name_free hnames h hr hs ht
        obtain ⟨t', ht', l⟩ := heap_grown_of (nextSub s m.streams[i] sb) buffer.capacity ht
          (h.next q hq).ne
        refine ⟨t', ?_, by rw [l.name]; exact hfree⟩
        rw [← ht', heap_grown_nextSub hs]) buffer.capacity
    exact ⟨m', except_bind_ok.mpr ⟨_, createSubstream_some hs hb (not_le.mp hle) hsb hno,
      except_bind_ok.mpr ⟨buffer, hbuf, hm'⟩⟩⟩

/-! ### Work -/

/-- The keys of the sub-buffers that are announced under a key. -/
def subKeys (shm : Text → Option SharedBuffer) (key : Text) : List Text :=
  match shm key with
  | none => []
  | some b => (List.range b.subbuffersNo).map fun j => subKey key (j + 1)

/-- How many streams are still to come below the one at `p`; keys have at most `n` letters. -/
def pending (n : ℕ) (m : ShamonStreams) (p : ℕ) : ℕ :=
  match m.heap p with
  | none => 0
  | some s => (((subKeys m.shm s.key).drop s.substreamsNo).map
      (nodes (subKeys m.shm) (n - s.key.length))).sum

/-- How many streams are still to come. -/
def work (n : ℕ) (m : ShamonStreams) : ℕ := ∑ p ∈ Finset.range m.next, m.pending n p

theorem subKeys_attach (m : ShamonStreams) (key : Text) :
    subKeys (m.attach key).shm = subKeys m.shm := by
  funext k
  unfold subKeys ShamonStreams.attach
  by_cases hk : k = key
  · subst hk
    simp only [Function.update_self]
    cases m.shm k with
    | none => rfl
    | some b =>
      simp only [Option.map_some]
      split <;> rfl
  · simp only [Function.update_of_ne hk]

theorem work_attach (n : ℕ) (m : ShamonStreams) (key : Text) :
    (m.attach key).work n = m.work n := by
  unfold work pending
  rw [subKeys_attach]
  rfl

/-- The new stream takes over what is below it. -/
theorem pending_nextSub {n c : ℕ} {m : ShamonStreams} {p : ℕ} {s : Stream} {b sb : SharedBuffer}
    (hn : ∀ key, (m.shm key).isSome = true → key.length ≤ n) (hs : m.heap p = some s)
    (hp : p ≠ m.next) (hb : m.shm s.key = some b) (hlt : s.substreamsNo < b.subbuffersNo)
    (hsb : m.shm (subKey s.key (s.substreamsNo + 1)) = some sb) :
    (m.grown (nextSub s p sb) c).pending n p + (m.grown (nextSub s p sb) c).pending n m.next + 1 ≤
      m.pending n p := by
  have hlong := hn _ (by rw [hsb]; rfl)
  have hlen := subKey_longer s.key (s.substreamsNo + 1)
  obtain ⟨d, hd⟩ : ∃ d, n - s.key.length = d + 1 := ⟨n - s.key.length - 1, by omega⟩
  have hdrop : (subKeys m.shm s.key).drop s.substreamsNo =
      subKey s.key (s.substreamsNo + 1) :: (subKeys m.shm s.key).drop (s.substreamsNo + 1) := by
    have hl : s.substreamsNo < (subKeys m.shm s.key).length := by
      simpa only [subKeys, hb, List.length_map, List.length_range] using hlt
    rw [List.drop_eq_getElem_cons hl]
    simp only [subKeys, hb, List.getElem_map, List.getElem_range]
  have hold : m.pending n p = nodes (subKeys m.shm) (d + 1) (subKey s.key (s.substreamsNo + 1)) +
      (((subKeys m.shm s.key).drop (s.substreamsNo + 1)).map
        (nodes (subKeys m.shm) (d + 1))).sum := by
    simp only [pending, hs]
    rw [hdrop, hd, List.map_cons, List.sum_cons]
  have hparent : (m.grown (nextSub s p sb) c).pending n p =
      (((subKeys m.shm s.key).drop (s.substreamsNo + 1)).map
        (nodes (subKeys m.shm) (d + 1))).sum := by
    have hpar : (nextSub s p sb).parentStream = some p := rfl
    unfold pending
    rw [heap_grown _ hp, hs, Option.map_some, if_pos hpar]
    dsimp only [Stream.adopt]
    rw [hd]
    rfl
  have hnew : (m.grown (nextSub s p sb) c).pending n m.next ≤
      ((subKeys m.shm (subKey s.key (s.substreamsNo + 1))).map (nodes (subKeys m.shm) d)).sum := by
    unfold pending
    rw [heap_grown_next]
    exact List.sum_le_sum fun k _ => nodes_mono _ (by dsimp only [nextSub]; omega) k
  rw [hold, hparent, nodes]
  omega

theorem work_grown {n c : ℕ} {m : ShamonStreams} {p : ℕ} {s : Stream} {b sb : SharedBuffer}
    (hn : ∀ key, (m.shm key).isSome = true → key.length ≤ n) (hs : m.heap p = some s)
    (hp : p < m.next) (hb : m.shm s.key = some b) (hlt : s.substreamsNo < b.subbuffersNo)
    (hsb : m.shm (subKey s.key (s.substreamsNo + 1)) = some sb) :
    (m.grown (nextSub s p sb) c).work n + 1 ≤ m.work n := by
  have hmem : p ∈ Finset.range m.next := Finset.mem_range.mpr hp
  have hothers : ∑ q ∈ (Finset.range m.next).erase p, (m.grown (nextSub s p sb) c).pending n q =
      ∑ q ∈ (Finset.range m.next).erase p, m.pending n q := by
    refine Finset.sum_congr rfl fun q hq => ?_
    obtain ⟨hqp, hq⟩ := Finset.mem_erase.mp hq
    have hpq : (nextSub s p sb).parentStream ≠ some q := fun h => hqp (Option.some.inj h).symm
    unfold pending
    rw [heap_grown _ (Finset.mem_range.mp hq).ne]
    cases m.heap q with
    | none => rfl
    | some t =>
      rw [Option.map_some, if_neg hpq]
      rfl
  have hle := pending_nextSub (c := c) hn hs hp.ne hb hlt hsb
  unfold work
  have hnext : (m.grown (nextSub s p sb) c).next = m.next + 1 := rfl
  rw [hnext, Finset.sum_range_succ, ← Finset.add_sum_erase _ _ hmem,
    ← Finset.add_sum_erase _ (m.pending n) hmem, hothers]
  omega

/-- A turn finds nothing new at its stream, or brings the work nearer to its end. -/
theorem discoverAt_work {n : ℕ} {m m' : ShamonStreams} {i : ℕ} (h : Ok m)
    (hn : ∀ key, (m.shm key).isSome = true → key.length ≤ n) (hi : i < m.streams.length)
    (hm : m.discoverAt i = .ok m') :
    m' = m ∧ (∃ p s b, m.streams[i]? = some p ∧ m.heap p = some s ∧ m.shm s.key = some b ∧
        b.subbuffersNo ≤ s.substreamsNo) ∨
      m'.streams.length = m.streams.length + 1 ∧ m'.work n + 1 ≤ m.work n ∧
        ∀ key, (m'.shm key).isSome = true → key.length ≤ n := by
  obtain ⟨p, s, b, hp, hs, hb, ⟨hle, rfl⟩ | ⟨hlt, sb, -, c, hsb, -, hnames, rfl⟩⟩ :=
    discoverAt_cases hi hm
  · exact .inl ⟨rfl, p, s, b, hp, hs, hb, hle⟩
  · refine .inr ⟨List.length_append, ?_, fun k hk => hn k ?_⟩
    · rw [work_attach]
      exact work_grown hn hs (h.next p (List.mem_of_getElem? hp)) hb hlt hsb
    · unfold attach at hk
      dsimp only at hk
      by_cases hkk : k = subKey s.key (s.substreamsNo + 1)
      · rw [hkk, hsb]
        rfl
      · rw [Function.update_of_ne hkk] at hk
        exact hk

/-! ### Calls -/

/-- A stream of the list from `i` on that lacks an announced sub-buffer. -/
def Lacks (m : ShamonStreams) (i : ℕ) : Prop :=
  ∃ j p s b, i ≤ j ∧ m.streams[j]? = some p ∧ m.heap p = some s ∧ m.shm s.key = some b ∧
    s.substreamsNo < b.subbuffersNo

/-- A call while the sources are quiet returns, and if a stream lacks a sub-buffer there is less
    work left. The streams are no more than ten, those still to come included. -/
theorem discover_returns {names : Text → Prop} (hnames : ∀ n, names n → ∀ k i, n ≠ subKey k i)
    {n turns : ℕ} {m : ShamonStreams} (hm : Reached names m none) (ha : Announced m.shm)
    (hn : ∀ key, (m.shm key).isSome = true → key.length ≤ n)
    (hten : m.work n + m.streams.length ≤ 10) (hturns : m.work n + m.streams.length < turns) :
    ∃ m' i, m.discover turns 0 = .ok (some (m', i)) ∧ Reached names m' none ∧ Announced m'.shm ∧
      (∀ key, (m'.shm key).isSome = true → key.length ≤ n) ∧
      m'.work n + m'.streams.length ≤ m.work n + m.streams.length ∧
      (m'.work n < m.work n ∨ m'.work n ≤ m.work n ∧ ¬ Lacks m 0) := by
  let I : ShamonStreams × ℕ → Prop := fun s => Reached names s.1 (some s.2) ∧
    Announced s.1.shm ∧ (∀ key, (s.1.shm key).isSome = true → key.length ≤ n) ∧
    s.1.work n + s.1.streams.length ≤ 10 ∧
    (s.1.work n < m.work n ∨ s.1.work n ≤ m.work n ∧ (Lacks m 0 → Lacks s.1 s.2))
  let R : ShamonStreams × ℕ → ShamonStreams × ℕ → Prop := fun s s' =>
    s'.1.work n + s'.1.streams.length ≤ s.1.work n + s.1.streams.length
  have hloop : ∃ s', m.discover turns 0 = .ok (some s') ∧ I s' ∧ R (m, 0) s' ∧
      decide (s'.2 < s'.1.streams.length) = false := by
    refine whileDo_returns (I := I) (R := R)
      (μ := fun s => s.1.work n + (s.1.streams.length - s.2)) (fun _ => le_rfl)
      (fun h h' => le_trans h' h) ?_ ⟨hm.enter, ha, hn, hten, .inr ⟨le_rfl, id⟩⟩ hturns
    rintro ⟨m1, i⟩ ⟨hr, ha1, hn1, ht1, hw⟩ hc
    dsimp only at hr ha1 hn1 ht1 hw hc
    have hi : i < m1.streams.length := of_decide_eq_true hc
    obtain ⟨m2, hm2⟩ := discoverAt_returns hnames hr.ok hr.rooted ha1 (by omega) hi
    have ha2 := discoverAt_announced ha1 hi hm2
    refine ⟨(m2, i + 1), except_bind_ok.mpr ⟨m2, hm2, rfl⟩, ?_⟩
    rcases discoverAt_work hr.ok hn1 hi hm2 with ⟨rfl, p, s, b, hp, hs, hb, hle⟩ | ⟨hl, hlt, hn2⟩
    · refine ⟨⟨hr.turn hi hm2, ha2, hn1, ht1, hw.imp_right (And.imp_right fun h hlack => ?_)⟩,
        le_rfl, ?_⟩
      · -- this stream lacks nothing, so it is a later one
        obtain ⟨j, p', s', b', hj, hp', hs', hb', hlt'⟩ := h hlack
        refine ⟨j, p', s', b', ?_, hp', hs', hb', hlt'⟩
        rcases Nat.lt_or_eq_of_le hj with hj | hj
        · exact hj
        · exfalso
          rw [← hj, hp] at hp'
          cases hp'
          cases hs.symm.trans hs'
          cases hb.symm.trans hb'
          omega
      · dsimp only
        omega
    · have hdec : m1.work n ≤ m.work n := hw.elim (fun h => h.le) And.left
      refine ⟨⟨hr.turn hi hm2, ha2, hn2, ?_, .inl ?_⟩, ?_, ?_⟩
      · dsimp only
        omega
      · dsimp only
        omega
      · change m2.work n + m2.streams.length ≤ m1.work n + m1.streams.length
        omega
      · dsimp only
        omega
  obtain ⟨⟨m', i⟩, hd, ⟨hr, ha', hn', -, hw⟩, hR, hc⟩ := hloop
  have hend : m'.streams.length ≤ i := not_lt.mp (of_decide_eq_false hc)
  refine ⟨m', i, hd, hr.leave hend, ha', hn', hR, hw.imp_right (And.imp_right fun hl hlack => ?_)⟩
  obtain ⟨j, p, s, b, hj, hp, -⟩ := hl hlack
  have hjl : j < m'.streams.length := (List.getElem?_eq_some_iff.mp hp).1
  exact absurd (hjl.trans_le hend) (not_lt.mpr hj)

/-- So many calls of `shamon_get_next_ev`, as far as streams are concerned. -/
def getNextEvs (turns : ℕ) : ℕ → ShamonStreams → Except Stop (Option ShamonStreams)
  | 0, m => pure (some m)
  | calls + 1, m => do
    match ← m.discover turns 0 with
    | none => pure none
    | some (m, _) => getNextEvs turns calls m

theorem getNextEvs_succ {turns calls i : ℕ} {m m' : ShamonStreams} {r : Option ShamonStreams}
    (h : m.discover turns 0 = .ok (some (m', i))) (h' : getNextEvs turns calls m' = .ok r) :
    getNextEvs turns (calls + 1) m = .ok r := except_bind_ok.mpr ⟨some (m', i), h, h'⟩

/-- Once the sources are quiet, with every announced sub-buffer there and no more than ten streams in
    all, `shamon_get_next_ev` returns each time, never over a name that is taken, and after finitely
    many calls every announced sub-buffer has its stream, at any depth. -/
theorem streams_all_discovered {names : Text → Prop}
    (hnames : ∀ n, names n → ∀ key idx, n ≠ subKey key idx) {m : ShamonStreams}
    (hm : Reached names m none) (ha : Announced m.shm) {n : ℕ}
    (hn : ∀ key, (m.shm key).isSome = true → key.length ≤ n)
    (hten : m.work n + m.streams.length ≤ 10) :
    ∃ turns calls m', getNextEvs turns calls m = .ok (some m') ∧
      Reached names m' none ∧ ∀ p s, m'.heap p = some s →
        ∃ b, m'.shm s.key = some b ∧ s.substreamsNo = b.subbuffersNo := by
  -- a call leaves less work, or nothing was lacking
  have hcalls : ∀ w (m0 : ShamonStreams), m0.work n = w → Reached names m0 none →
      Announced m0.shm → (∀ key, (m0.shm key).isSome = true → key.length ≤ n) →
      m0.work n + m0.streams.length ≤ 10 →
      ∃ calls m', getNextEvs 11 calls m0 = .ok (some m') ∧ Reached names m' none ∧
        ¬ Lacks m' 0 := by
    intro w
    induction w using Nat.strong_induction_on with
    | _ w ih =>
      rintro m0 rfl h0 ha0 hn0 hten0
      by_cases hl : Lacks m0 0
      · obtain ⟨m1, i, hd, h1, ha1, hn1, hle1, hw⟩ :=
          discover_returns hnames h0 ha0 hn0 hten0 (Nat.lt_succ_of_le hten0)
        rcases hw with hw | ⟨-, hnl⟩
        · obtain ⟨calls, m', hc, hr, hl'⟩ := ih _ hw m1 rfl h1 ha1 hn1 (hle1.trans hten0)
          exact ⟨calls + 1, m', getNextEvs_succ hd hc, hr, hl'⟩
        · exact absurd hl hnl
      · exact ⟨0, m0, rfl, h0, hl⟩
  obtain ⟨calls, m', hc, hr, hl⟩ := hcalls _ m rfl hm ha hn hten
  refine ⟨_, calls, m', hc, hr, fun p s hs => ?_⟩
  obtain ⟨b, hb, hle⟩ := hr.ok.buffer p s hs
  refine ⟨b, hb, le_antisymm hle (not_lt.mp fun hlt => hl ?_)⟩
  obtain ⟨j, hj⟩ := List.mem_iff_getElem?.mp ((hr.ok.added p).mp (by rw [hs]; rfl))
  exact ⟨j, p, s, b, Nat.zero_le _, hj, hs, hb, hlt⟩

theorem oneAnnounced_announced : Announced oneAnnounced.shm := by
  intro key b i hb h1 hi
  unfold oneAnnounced at hb
  dsimp only at hb
  split at hb
  case isTrue hk =>
    cases hb
    obtain rfl : i = 1 := le_antisymm hi h1
    subst hk
    exact ⟨rfl, by decide⟩
  case isFalse hk =>
    split at hb
    · cases hb
      exact absurd (h1.trans hi) (by decide)
    · cases hb

theorem oneAnnounced_short (key : Text) (h : (oneAnnounced.shm key).isSome = true) :
    key.length ≤ 7 := by
  unfold oneAnnounced at h
  dsimp only at h
  split at h
  case isTrue hk => rw [hk]; decide
  case isFalse hk =>
    split at h
    case isTrue hk => rw [hk]; decide
    case isFalse hk => cases h

theorem streams_all_discovered_two : ∃ turns calls m',
    getNextEvs turns calls oneAnnounced = .ok (some m') ∧ Reached (· = ['a']) m' none ∧
      ∀ p s, m'.heap p = some s → ∃ b, m'.shm s.key = some b ∧ s.substreamsNo = b.subbuffersNo := by
  refine streams_all_discovered (fun n hn key idx heq => ?_) oneAnnounced_reached
    oneAnnounced_announced oneAnnounced_short (by decide)
  have hlen := congrArg List.length (hn.symm.trans heq)
  rw [subKey_length] at hlen
  exact absurd hlen (by simp; omega)

end ShamonStreams

end Vamos
