import Mathlib.Tactic
import VamosBuffers.Core.Source

/-! Looking an event record up by its kind: `vms_stream_get_event_record` of `src/core/stream.c`. The
    first query makes a cache that is indexed by kinds, later queries read it.

        records     kind 3, kind 7, kind 3            max_kind = 7
        cache       _ _ _ 3 _ _ _ 7                   the last record of a kind stays
        query 3     the second record of kind 3       the uncached search finds the first
        query 5     an entry nobody wrote             ... finds nothing
        query 90    behind the cache                  ... finds nothing

    Kinds from 128 on are searched for each time. -/

namespace Vamos
open Schemes

/-- What the returned pointer points to. -/
inductive Lookup where
  | null
  | record (r : EventRecord)
  | unfilled
  | outside
  deriving DecidableEq, Repr

namespace Lookup

def ofPointer : Option EventRecord → Lookup
  | none => .null
  | some r => .record r

/-- `rec->kind == kind`. -/
def hasKind (kind : ℕ) : Lookup → Bool
  | .record r => r.kind == kind
  | _ => false

end Lookup

/-- The allocated cache; an entry is `none` until it is written. -/
abbrev EventsCache := List (Option EventRecord)

namespace EventsCache

/-- `MAX_EVENTS_CACHE_SIZE`. -/
def maxSize : ℕ := 128

/-- `&stream->events_cache[kind]`. -/
def entry (cache : EventsCache) (kind : ℕ) : Lookup :=
  match cache[kind]? with
  | none => .outside
  | some none => .unfilled
  | some (some r) => .record r

/-- `get_max_kind`. -/
def getMaxKind (recs : List EventRecord) : ℕ :=
  recs.foldl (fun ret r => if ret < r.kind then r.kind else ret) 0

/-- `cache_sz`. -/
def cacheSz (recs : List EventRecord) : ℕ :=
  (if maxSize < getMaxKind recs then maxSize else getMaxKind recs) + 1

/-- One round of the loop that fills the cache and looks for `kind` on the way. -/
def fillStep (sz kind : ℕ) (st : EventsCache × Option EventRecord) (r : EventRecord) :
    EventsCache × Option EventRecord :=
  (if r.kind < sz then st.1.set r.kind (some r) else st.1,
    if r.kind = kind then some r else st.2)

/-- The cache after the loop, and the record found. -/
def fill (sz kind : ℕ) (recs : List EventRecord) : EventsCache × Option EventRecord :=
  recs.foldl (fillStep sz kind) (List.replicate sz none, none)

end EventsCache

/-- `vms_stream_get_event_record_no_cache`. -/
def getEventRecordNoCache (recs : List EventRecord) (kind : ℕ) : Lookup :=
  .ofPointer (recs.find? (·.kind == kind))

/-- `vms_stream_get_event_record`, from one `stream->events_cache` to the next. -/
def getEventRecord (recs : List EventRecord) (cache : Option EventsCache) (kind : ℕ) :
    Chk (Lookup × Option EventsCache) := do
  Chk.require (0 < kind)
  match cache with
  | some c =>
    if kind < EventsCache.maxSize then
      Chk.require ((c.entry kind).hasKind kind = true)
      pure (c.entry kind, some c)
    else pure (getEventRecordNoCache recs kind, some c)
  | none =>
    let sz := EventsCache.cacheSz recs
    Chk.require (0 < sz)
    let (c, found) := EventsCache.fill sz kind recs
    pure (.ofPointer found, some c)

/-- The answers to a sequence of queries. -/
def lookups (recs : List EventRecord) : Option EventsCache → List ℕ → List Lookup
  | _, [] => []
  | cache, kind :: kinds =>
    let (answer, cache) := (getEventRecord recs cache kind).val
    answer :: lookups recs cache kinds

/-! ### The cache after the loop -/

/-- The last record of a kind. -/
def lastOf (recs : List EventRecord) (kind : ℕ) : Option EventRecord :=
  recs.reverse.find? (·.kind == kind)

theorem lastOf_append (recs : List EventRecord) (r : EventRecord) (kind : ℕ) :
    lastOf (recs ++ [r]) kind = if r.kind = kind then some r else lastOf recs kind := by
  by_cases h : r.kind = kind
  · simp [lastOf, h]
  · simp [lastOf, h]

theorem lastOf_eq_none {recs : List EventRecord} {kind : ℕ} :
    lastOf recs kind = none ↔ ∀ r ∈ recs, r.kind ≠ kind := by
  simp [lastOf]

namespace EventsCache

theorem fill_append (sz kind : ℕ) (recs : List EventRecord) (r : EventRecord) :
    fill sz kind (recs ++ [r]) = fillStep sz kind (fill sz kind recs) r := by
  simp [fill]

theorem fill_length (sz kind : ℕ) (recs : List EventRecord) :
    (fill sz kind recs).1.length = sz := by
  induction recs using List.reverseRecOn with
  | nil => simp [fill]
  | append_singleton recs r ih =>
    rw [fill_append, fillStep]
    split <;> simpa using ih

/-- Each entry has the last record of its kind. -/
theorem fill_entry {sz k : ℕ} (kind : ℕ) (recs : List EventRecord) (hk : k < sz) :
    (fill sz kind recs).1[k]? = some (lastOf recs k) := by
  induction recs using List.reverseRecOn with
  | nil => simp [fill, lastOf, hk]
  | append_singleton recs r ih =>
    have hlen := fill_length sz kind recs
    rw [fill_append, fillStep, lastOf_append]
    by_cases hr : r.kind = k
    · simp [hr, hk, hlen]
    · simp only [hr, if_false]
      split
      · rw [List.getElem?_set_ne hr, ih]
      · exact ih

theorem fill_found (sz kind : ℕ) (recs : List EventRecord) :
    (fill sz kind recs).2 = lastOf recs kind := by
  induction recs using List.reverseRecOn with
  | nil => simp [fill, lastOf]
  | append_singleton recs r ih =>
    rw [fill_append, fillStep, lastOf_append, ih]

theorem kind_le_getMaxKind {recs : List EventRecord} {r : EventRecord} (hr : r ∈ recs) :
    r.kind ≤ getMaxKind recs := by
  induction recs using List.reverseRecOn with
  | nil => cases hr
  | append_singleton recs x ih =>
    simp only [getMaxKind, List.foldl_append, List.foldl_cons, List.foldl_nil]
    simp only [getMaxKind] at ih
    rcases List.mem_append.mp hr with hr | hr
    · have := ih hr
      split <;> omega
    · obtain rfl : r = x := by simpa using hr
      split <;> omega

/-- The cache reaches up to every kind below its largest size that some record has. -/
theorem lt_cacheSz {recs : List EventRecord} {r : EventRecord} (hr : r ∈ recs)
    (hk : r.kind < maxSize) : r.kind < cacheSz recs := by
  have := kind_le_getMaxKind hr
  rw [cacheSz]
  split <;> omega

/-- An entry of the filled cache is the last record of its kind, and none if there is no such
    record: it is then unwritten or outside. -/
theorem entry_fill (kind : ℕ) (recs : List EventRecord) {k : ℕ} (hk : k < maxSize) (x : Lookup)
    (hx : x = .null ∨ ∃ r, x = .record r) :
    (fill (cacheSz recs) kind recs).1.entry k = x ↔ ∃ r, lastOf recs k = some r ∧ x = .record r := by
  rw [entry]
  rcases Nat.lt_or_ge k (cacheSz recs) with hin | hout
  · rw [fill_entry kind recs hin]
    cases lastOf recs k with
    | none => rcases hx with rfl | ⟨r, rfl⟩ <;> simp
    | some r => simp [eq_comm]
  · have hnone : lastOf recs k = none := by
      rw [lastOf_eq_none]
      rintro r hr rfl
      exact absurd (lt_cacheSz hr hk) (by omega)
    rw [List.getElem?_eq_none (by rw [fill_length]; exact hout), hnone]
    rcases hx with rfl | ⟨r, rfl⟩ <;> simp

end EventsCache

/-! ### Queries -/

/-- The first and the last record of the kind are equal, or there is none. -/
def SameEnds (recs : List EventRecord) (kind : ℕ) : Prop :=
  recs.find? (·.kind == kind) = lastOf recs kind

theorem ofPointer_inj {a b : Option EventRecord} : Lookup.ofPointer a = Lookup.ofPointer b ↔ a = b := by
  cases a <;> cases b <;> simp [Lookup.ofPointer]

theorem ofPointer_cases (a : Option EventRecord) :
    Lookup.ofPointer a = .null ∨ ∃ r, Lookup.ofPointer a = .record r := by
  cases a <;> simp [Lookup.ofPointer]

/-- The first query. -/
theorem first_query (recs : List EventRecord) (kind : ℕ) :
    (getEventRecord recs none kind).val.1 = getEventRecordNoCache recs kind ↔
      SameEnds recs kind := by
  simp only [getEventRecord, Chk.bind_val, Chk.pure_val, EventsCache.fill_found,
    getEventRecordNoCache, ofPointer_inj, SameEnds]
  exact eq_comm

/-- A later query of a small kind needs a record of that kind. -/
theorem later_query (recs : List EventRecord) (first kind : ℕ) :
    (getEventRecord recs (some (EventsCache.fill (EventsCache.cacheSz recs) first recs).1) kind).val.1 =
        getEventRecordNoCache recs kind ↔
      (kind < 128 → (∃ r ∈ recs, r.kind = kind) ∧ SameEnds recs kind) := by
  by_cases hk : kind < EventsCache.maxSize
  · have hk' : kind < 128 := hk
    simp only [getEventRecord, Chk.bind_val, if_pos hk, Chk.pure_val, hk', true_imp_iff]
    rw [getEventRecordNoCache, EventsCache.entry_fill first recs hk _ (ofPointer_cases _), SameEnds]
    constructor
    · rintro ⟨r, hr, hfind⟩
      have hfind : recs.find? (·.kind == kind) = some r := ofPointer_inj.mp hfind
      refine ⟨⟨r, List.mem_of_find?_eq_some hfind, ?_⟩, by rw [hfind, hr]⟩
      simpa using List.find?_some hfind
    · rintro ⟨⟨r, hr, rfl⟩, hsame⟩
      obtain ⟨x, hx⟩ : ∃ x, lastOf recs r.kind = some x := by
        rw [← Option.ne_none_iff_exists']
        intro hnone
        exact lastOf_eq_none.mp hnone r hr rfl
      exact ⟨x, hx, by rw [hsame, hx]; rfl⟩
  · have hk' : ¬ kind < 128 := hk
    simp only [getEventRecord, Chk.bind_val, if_neg hk, Chk.pure_val, hk', false_imp_iff]

/-- Every query is answered with the record that the uncached search finds, or with `NULL` where it
    finds none; no entry outside the cache or not written is looked at. -/
def CacheAgrees (recs : List EventRecord) (kinds : List ℕ) : Prop :=
  lookups recs none kinds = kinds.map (getEventRecordNoCache recs)

/-- A first query needs equal ends; a later one, of a kind below 128, also a record. -/
def CacheServes (recs : List EventRecord) : List ℕ → Prop
  | [] => True
  | kind :: kinds => SameEnds recs kind ∧
      ∀ k ∈ kinds, k < 128 → (∃ r ∈ recs, r.kind = k) ∧ SameEnds recs k

theorem getEventRecord_cache (recs : List EventRecord) (c : EventsCache) (kind : ℕ) :
    (getEventRecord recs (some c) kind).val.2 = some c := by
  simp only [getEventRecord, Chk.bind_val]
  split <;> rfl

theorem later_queries (recs : List EventRecord) (first : ℕ) (kinds : List ℕ) :
    lookups recs (some (EventsCache.fill (EventsCache.cacheSz recs) first recs).1) kinds =
        kinds.map (getEventRecordNoCache recs) ↔
      ∀ k ∈ kinds, k < 128 → (∃ r ∈ recs, r.kind = k) ∧ SameEnds recs k := by
  induction kinds with
  | nil => simp [lookups]
  | cons k kinds ih =>
    simp only [lookups, getEventRecord_cache, List.map_cons, List.cons.injEq, List.forall_mem_cons,
      later_query, ih]

/-- When the cache agrees with the search, for every list of records and every sequence of
    queries. -/
theorem cacheAgrees_iff (recs : List EventRecord) (kinds : List ℕ) :
    CacheAgrees recs kinds ↔ CacheServes recs kinds := by
  cases kinds with
  | nil => simp [CacheAgrees, CacheServes, lookups]
  | cons k kinds =>
    have hcache : (getEventRecord recs none k).val.2 =
        some (EventsCache.fill (EventsCache.cacheSz recs) k recs).1 := rfl
    simp only [CacheAgrees, CacheServes, lookups, List.map_cons, List.cons.injEq, first_query,
      hcache, later_queries]

/-- An event `a:i` that was registered as kind 10. -/
def kindTen : EventRecord where
  name := strncpy 63 ['a'] ++ ['\x00']
  kind := 10
  size := 20
  signature := strncpy 31 ['i'] ++ ['\x00']

/-- It is asked for first, then two kinds that nobody has. -/
theorem not_cacheAgrees_gap :
    lookups [kindTen] none [10, 5, 20] = [.record kindTen, .unfilled, .outside] ∧
      ¬ CacheAgrees [kindTen] [10, 5, 20] := by
  unfold CacheAgrees
  decide

end Vamos
