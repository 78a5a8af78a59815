import Mathlib.Tactic
import VamosBuffers.Core.Source

/-! Which strings `vms_source_control_define_str` takes, and what it makes of them.

        the format       entry ( , entry )* [ , ]        entry = name : signature
        what passes      the same, where a name may hold commas and commas are only counted

    The walk cuts a name at the next colon and a signature at the next comma, so a comma in front of
    a colon becomes part of the name; the counts at the start let exactly one such comma through, and
    only if the string does not end with one. -/

namespace Vamos
open Schemes

/-! ### Signatures -/

/-- Letters that have a size. -/
def Letters (sig : Text) : Prop := ∀ c ∈ sig, (signatureOpGetSize c).isSome

instance (sig : Text) : Decidable (Letters sig) := List.decidableBAll _ _

theorem signatureSum_isSome {sig : Text} (n : ℕ) :
    (signatureSum n sig).isSome ↔ Letters sig := by
  induction sig generalizing n with
  | nil => simp [signatureSum, Letters]
  | cons c sig ih =>
    rw [signatureSum]
    cases hc : signatureOpGetSize c with
    | none => simp [Letters, hc]
    | some k => simp [Letters, hc, ih]

theorem Letters.not_mem_colon {sig : Text} (h : Letters sig) : ':' ∉ sig := by
  intro hc
  exact absurd (h _ hc) (by decide)

theorem Letters.not_mem_comma {sig : Text} (h : Letters sig) : ',' ∉ sig := by
  intro hc
  exact absurd (h _ hc) (by decide)

/-! ### Entries -/

/-- A name and a signature. -/
structure Entry where
  name : Text
  sig : Text
  deriving DecidableEq, Repr

namespace Entry

/-- `name:sig`. -/
def text (e : Entry) : Text := e.name ++ ':' :: e.sig

/-- The signature is one, and the name ends at the colon. -/
structure Loose (e : Entry) : Prop where
  colon : ':' ∉ e.name
  letters : Letters e.sig

/-- An entry of the format. -/
structure Ok (e : Entry) : Prop extends Loose e where
  comma : ',' ∉ e.name

/-- The record `init_record` writes for the entry. -/
def record (e : Entry) : Option EventRecord := (EventRecord.init e.name e.sig).val

/-- The entry fits the local arrays, its signature also the record. -/
def short (e : Entry) : Bool := decide (e.name.length ≤ 62) && decide (e.sig.length ≤ 31)

theorem record_isSome (e : Entry) : e.record.isSome ↔ Letters e.sig := by
  rw [← signatureSum_isSome 0]
  simp only [record, EventRecord.init, signatureGetSize, Chk.bind_val]
  cases signatureSum 0 e.sig <;> simp

theorem init_eq (e : Entry) : EventRecord.init e.name e.sig =
    ⟨e.record, decide (e.name.length ≤ 63) && decide (e.sig.length ≤ 31)⟩ := by
  refine Chk.ext rfl ?_
  simp only [EventRecord.init]
  cases signatureGetSize e.sig <;>
    simp only [Chk.bind_ok, Chk.require_ok, Chk.pure_ok, Bool.and_eq_true, decide_eq_true_eq,
      and_true] <;>
    rfl

/-- What the four pointers are at the entry, `rest` being what follows it. -/
def marksAt (e : Entry) (rest : Text) : Control.Marks where
  nStart := e.text ++ rest
  nEnd := ':' :: (e.sig ++ rest)
  sStart := e.sig ++ rest
  sEnd := rest

end Entry

/-- What follows an entry: the others, and maybe a comma at the end. -/
def follow : List Entry → Bool → Text
  | [], trailing => if trailing then [','] else []
  | e :: es, trailing => ',' :: (e.text ++ follow es trailing)

/-- The string of a list of entries, with a comma at its end or without. -/
def print : List Entry → Bool → Text
  | [], _ => []
  | e :: es, trailing => e.text ++ follow es trailing

/-- The format. -/
def Grammar (s : Text) : Prop :=
  ∃ es trailing, es ≠ [] ∧ (∀ e ∈ es, e.Ok) ∧ s = print es trailing

/-! ### One entry of the walk -/

namespace Control

theorem copyPart_append (a b : Text) (limit : ℕ) : copyPart (a ++ b) b limit =
    ⟨a, decide (a.length ≤ limit) && decide (a.length ≤ 62)⟩ := by
  have hlen : (a ++ b).length - b.length = a.length := by simp
  refine Chk.ext ?_ ?_
  · simp only [copyPart, Chk.bind_val, Chk.pure_val, hlen, List.take_left']
  · simp only [copyPart, hlen, Chk.bind_ok, Chk.require_ok, Chk.pure_ok, EventRecord.maxNameSize,
      Bool.and_eq_true, decide_eq_true_eq, and_true]
    omega

/-- What follows an entry that is not the last starts with a comma; the last one may end there. -/
theorem marks_text {e : Entry} (he : e.Loose) (rest : Text) (last : Bool)
    (hrest : (∃ r, rest = ',' :: r) ∨ rest = [] ∧ last = true) :
    marks (e.text ++ rest) last = some (e.marksAt rest) := by
  have hn : strchr ':' (e.text ++ rest) = some (':' :: (e.sig ++ rest)) := by
    rw [Entry.text, List.append_assoc]
    exact strchr_append _ he.colon
  simp only [marks, hn, List.tail_cons]
  rcases hrest with ⟨r, rfl⟩ | ⟨rfl, rfl⟩
  · rw [strchr_append _ he.letters.not_mem_comma]
    rfl
  · rw [List.append_nil, strchr_eq_none he.letters.not_mem_comma]
    simp [Entry.marksAt]

/-- Conversely, where the pointers are found they cut off an entry, if its signature is one. -/
theorem of_marks {t : Text} {last : Bool} {m : Marks} (h : marks t last = some m) :
    ∃ e : Entry, ':' ∉ e.name ∧ ',' ∉ e.sig ∧ t = e.text ++ m.sEnd ∧ m = e.marksAt m.sEnd ∧
      ((∃ r, m.sEnd = ',' :: r) ∨ m.sEnd = []) := by
  rw [marks] at h
  split at h
  · cases h
  · rename_i nEnd hn
    obtain ⟨name, b, rfl, hname, rfl⟩ := of_strchr hn
    simp only [List.tail_cons] at h
    split at h
    · rename_i sEnd hs
      obtain ⟨sig, r, rfl, hsig, rfl⟩ := of_strchr hs
      cases h
      exact ⟨⟨name, sig⟩, hname, hsig, by simp [Entry.text], by simp [Entry.marksAt, Entry.text],
        .inl ⟨r, rfl⟩⟩
    · rename_i hs
      split at h
      · cases h
        exact ⟨⟨name, b⟩, hname, not_mem_of_strchr hs, by simp [Entry.text],
          by simp [Entry.marksAt, Entry.text], .inr rfl⟩
      · cases h

/-- What the walk does after an entry, `rest` being what follows it. -/
def parseRest (evNums left : ℕ) (control : Control) (i : ℕ) : Text → Chk Defined
  | [] => pure (.block control)
  | [_] => pure (.block control)
  | _ :: nStart =>
    match marks nStart (i + 1 == evNums - 1) with
    | none => pure .null
    | some m => parseFrom evNums left control m

/-- The signature is one, so the record is written and the walk goes on. -/
theorem parseFrom_marksAt {e : Entry} {r : EventRecord} (hr : e.record = some r)
    (evNums left : ℕ) (control : Control) (rest : Text) :
    parseFrom evNums (left + 1) control (e.marksAt rest) =
      Chk.require (e.short = true) >>= fun _ =>
        let i := evNums - (left + 1)
        parseRest evNums left (control.put i r) i rest := by
  have hname : copyPart (e.marksAt rest).nStart (e.marksAt rest).nEnd EventRecord.maxNameSize =
      ⟨e.name, decide (e.name.length ≤ 63) && decide (e.name.length ≤ 62)⟩ := by
    simp only [Entry.marksAt, Entry.text, List.append_assoc, List.cons_append]
    exact copyPart_append ..
  have hsig : copyPart (e.marksAt rest).sStart (e.marksAt rest).sEnd EventRecord.maxSigSize =
      ⟨e.sig, decide (e.sig.length ≤ 31) && decide (e.sig.length ≤ 62)⟩ := copyPart_append ..
  rw [parseFrom, hname, hsig]
  refine Chk.ext ?_ ?_
  · simp only [Chk.bind_val, e.init_eq, hr, Entry.marksAt]
    rcases rest with _ | ⟨x, _ | ⟨y, nStart⟩⟩ <;> rfl
  · have hshort : e.short = true ↔ e.name.length ≤ 62 ∧ e.sig.length ≤ 31 := by
      simp [Entry.short]
    simp only [Chk.bind_ok, Chk.require_ok, e.init_eq, hr, Entry.marksAt, hshort]
    rcases rest with _ | ⟨x, _ | ⟨y, nStart⟩⟩ <;>
      simp only [parseRest, Bool.and_eq_true, decide_eq_true_eq] <;>
      constructor
    all_goals first
      | rintro ⟨⟨-, hn⟩, ⟨hs, -⟩, -, h⟩
        exact ⟨⟨hn, hs⟩, h⟩
      | rintro ⟨⟨hn, hs⟩, h⟩
        exact ⟨⟨by omega, hn⟩, ⟨hs, by omega⟩, ⟨by omega, hs⟩, h⟩

/-- A letter of the signature aborts. -/
theorem parseFrom_abort {e : Entry} (hr : e.record = none) (evNums left : ℕ) (control : Control)
    (rest : Text) :
    (parseFrom evNums (left + 1) control (e.marksAt rest)).val = .abort := by
  have hname : (copyPart (e.marksAt rest).nStart (e.marksAt rest).nEnd
      EventRecord.maxNameSize).val = e.name := by
    simp only [Entry.marksAt, Entry.text, List.append_assoc, List.cons_append, copyPart_append]
  have hsig : (copyPart (e.marksAt rest).sStart (e.marksAt rest).sEnd
      EventRecord.maxSigSize).val = e.sig := by
    simp only [Entry.marksAt, copyPart_append]
  rw [parseFrom]
  simp only [Chk.bind_val, hname, hsig, e.init_eq, hr, Chk.pure_val]

theorem parseRest_cons {nStart : Text} (h : nStart ≠ []) (evNums left : ℕ) (control : Control)
    (i : ℕ) (x : Char) : parseRest evNums left control i (x :: nStart) =
      match marks nStart (i + 1 == evNums - 1) with
      | none => pure .null
      | some m => parseFrom evNums left control m := by
  obtain ⟨y, t, rfl⟩ := List.exists_cons_of_ne_nil h
  rfl

theorem put_next (size n : ℕ) (filled : List (Option EventRecord)) (r : EventRecord) :
    put ⟨size, filled ++ List.replicate (n + 1) none⟩ filled.length r =
      ⟨size, (filled ++ [some r]) ++ List.replicate n none⟩ := by
  simp [put, List.replicate_succ]

/-! ### The whole walk -/

/-- What follows an entry lets the pointers be found. -/
theorem marks_follow {e : Entry} (he : e.Loose) (es : List Entry) (trailing last : Bool)
    (hlast : es = [] → last = true) :
    marks (e.text ++ follow es trailing) last = some (e.marksAt (follow es trailing)) := by
  refine marks_text he _ _ ?_
  cases es with
  | nil => cases trailing <;> simp [follow, hlast]
  | cons e' es => exact .inl ⟨_, rfl⟩

/-- The walk writes the records of the entries behind those it has written. -/
theorem parseFrom_follow {e : Entry} {es : List Entry} (h : ∀ x ∈ e :: es, x.Loose)
    (trailing : Bool) (size evNums : ℕ) (filled : List (Option EventRecord))
    (hn : filled.length + es.length + 1 = evNums) :
    parseFrom evNums (es.length + 1) ⟨size, filled ++ List.replicate (es.length + 1) none⟩
        (e.marksAt (follow es trailing)) =
      ⟨.block ⟨size, filled ++ (e :: es).map Entry.record⟩, (e :: es).all Entry.short⟩ := by
  induction es generalizing e filled with
  | nil =>
    obtain ⟨r, hr⟩ := Option.isSome_iff_exists.mp (e.record_isSome.mpr (h e (by simp)).letters)
    have hi : evNums - (0 + 1) = filled.length := by
      simp only [List.length_nil] at hn
      omega
    simp only [List.length_nil, parseFrom_marksAt hr, hi, put_next]
    have hrest : parseRest evNums 0 ⟨size, filled ++ [some r] ++ List.replicate 0 none⟩ filled.length
        (follow [] trailing) = pure (.block ⟨size, filled ++ [some r]⟩) := by
      cases trailing <;> simp [follow, parseRest]
    rw [hrest]
    refine Chk.ext ?_ ?_
    · simp [hr]
    · simp only [Chk.bind_ok, Chk.require_ok, Chk.pure_ok, List.all_cons, List.all_nil,
        Bool.and_true, and_true]
  | cons e' es ih =>
    obtain ⟨r, hr⟩ := Option.isSome_iff_exists.mp (e.record_isSome.mpr (h e (by simp)).letters)
    have h' : ∀ x ∈ e' :: es, x.Loose := fun x hx => h x (List.mem_cons_of_mem _ hx)
    simp only [List.length_cons] at hn
    have hi : evNums - (es.length + 1 + 1) = filled.length := by omega
    have hne : e'.text ++ follow es trailing ≠ [] := by simp [Entry.text]
    have hlast : es = [] → (filled.length + 1 == evNums - 1) = true := by
      rintro rfl
      simp only [List.length_nil] at hn
      simp only [beq_iff_eq]
      omega
    have hnext := ih h' (filled ++ [some r]) (by simp; omega)
    simp only [List.length_cons, parseFrom_marksAt hr, hi, put_next]
    rw [follow, parseRest_cons hne, marks_follow (h' e' (by simp)) es trailing _ hlast]
    simp only [hnext]
    refine Chk.ext ?_ ?_ <;> simp [hr]

/-- The commas inside the names. -/
def commasIn (es : List Entry) : ℕ := (es.map fun e => e.name.count ',').sum

theorem count_colon_text {e : Entry} (he : e.Loose) : e.text.count ':' = 1 := by
  have hn : e.name.count ':' = 0 := List.count_eq_zero.mpr he.colon
  have hs : e.sig.count ':' = 0 := List.count_eq_zero.mpr he.letters.not_mem_colon
  simp [Entry.text, hn, hs]

theorem count_comma_text {e : Entry} (he : e.Loose) : e.text.count ',' = e.name.count ',' := by
  have hs : e.sig.count ',' = 0 := List.count_eq_zero.mpr he.letters.not_mem_comma
  simp [Entry.text, hs]

theorem count_colon_follow {es : List Entry} (h : ∀ e ∈ es, e.Loose) (trailing : Bool) :
    (follow es trailing).count ':' = es.length := by
  induction es with
  | nil => cases trailing <;> rfl
  | cons e es ih =>
    have he := count_colon_text (h e (by simp))
    have hes := ih fun x hx => h x (List.mem_cons_of_mem _ hx)
    simp [follow, he, hes]
    omega

theorem count_comma_follow {es : List Entry} (h : ∀ e ∈ es, e.Loose) (trailing : Bool) :
    (follow es trailing).count ',' = es.length + commasIn es + trailing.toNat := by
  induction es with
  | nil => cases trailing <;> rfl
  | cons e es ih =>
    have he := count_comma_text (h e (by simp))
    have hes := ih fun x hx => h x (List.mem_cons_of_mem _ hx)
    simp only [follow, List.count_cons_self, List.count_append, he, hes, commasIn, List.map_cons,
      List.sum_cons, List.length_cons]
    omega

theorem count_colon_print {es : List Entry} (h : ∀ e ∈ es, e.Loose) (trailing : Bool) :
    (print es trailing).count ':' = es.length := by
  cases es with
  | nil => rfl
  | cons e es =>
    have he := count_colon_text (h e (by simp))
    have hes := count_colon_follow (fun x hx => h x (List.mem_cons_of_mem _ hx)) trailing
    simp [print, he, hes]
    omega

theorem count_comma_print {es : List Entry} (h : ∀ e ∈ es, e.Loose) (hne : es ≠ [])
    (trailing : Bool) :
    (print es trailing).count ',' + 1 = es.length + commasIn es + trailing.toNat := by
  cases es with
  | nil => exact absurd rfl hne
  | cons e es =>
    have he := count_comma_text (h e (by simp))
    have hes := count_comma_follow (fun x hx => h x (List.mem_cons_of_mem _ hx)) trailing
    simp only [print, List.count_append, he, hes, commasIn, List.map_cons, List.sum_cons,
      List.length_cons]
    omega

/-- The block of a list of entries. -/
def ofEntries (es : List Entry) : Control where
  size := (headBytes + es.length * EventRecord.bytes) % 2 ^ 64
  events := es.map Entry.record

/-- A list of entries is read back, also when one comma is too many in it. -/
theorem defineStr_print {es : List Entry} (h : ∀ e ∈ es, e.Loose) (hne : es ≠ [])
    {trailing : Bool} (hcommas : commasIn es + trailing.toNat ≤ 1) :
    defineStr (print es trailing) = ⟨.block (ofEntries es), es.all Entry.short⟩ := by
  have hcolon := count_colon_print h trailing
  have hcomma := count_comma_print h hne trailing
  obtain ⟨e, es, rfl⟩ := List.exists_cons_of_ne_nil hne
  simp only [List.length_cons] at hcolon hcomma
  have hguard : 0 < (print (e :: es) trailing).count ':' ∧
      ((print (e :: es) trailing).count ':' = (print (e :: es) trailing).count ',' ∨
        (print (e :: es) trailing).count ':' = (print (e :: es) trailing).count ',' + 1) := by
    omega
  have hlast : es = [] → (!decide (1 < es.length + 1)) = true := by
    rintro rfl
    rfl
  have hwalk := parseFrom_follow h trailing
    ((headBytes + (es.length + 1) * EventRecord.bytes) % 2 ^ 64) (es.length + 1) [] (by simp)
  simp only [List.nil_append] at hwalk
  simp only [defineStr]
  rw [if_pos hguard, hcolon, print, marks_follow (h e (by simp)) es trailing _ hlast]
  exact hwalk

/-- Where the walk reaches the end, it has read a list of entries. -/
theorem print_of_parseFrom {left evNums : ℕ} {t : Text} {last : Bool} {m : Marks}
    {control c : Control} (hleft : t.count ':' = left) (hm : marks t last = some m)
    (h : (parseFrom evNums left control m).val = .block c) :
    ∃ es trailing, es ≠ [] ∧ (∀ e ∈ es, e.Loose) ∧ t = print es trailing := by
  induction left generalizing t last m control with
  | zero =>
    obtain ⟨e, -, -, ht, -⟩ := of_marks hm
    rw [ht] at hleft
    simp [Entry.text] at hleft
  | succ left ih =>
    obtain ⟨e, hcolon, -, ht, hmark, hrest⟩ := of_marks hm
    rw [hmark] at h
    cases hr : e.record with
    | none => simp [parseFrom_abort hr] at h
    | some r =>
      have he : e.Loose := ⟨hcolon, e.record_isSome.mp (by simp [hr])⟩
      rcases hrest with ⟨n, hn⟩ | hn
      · rw [hn] at ht h
        by_cases hnil : n = []
        · exact ⟨[e], true, by simp, by simpa using he, by simp [ht, hnil, print, follow]⟩
        · simp only [parseFrom_marksAt hr, Chk.bind_val, parseRest_cons hnil] at h
          split at h
          · cases h
          · rename_i m' hm'
            have hcount : n.count ':' = left := by
              have := count_colon_text he
              simp [ht, this] at hleft
              omega
            obtain ⟨es, trailing, hne, hes, rfl⟩ := ih hcount hm' h
            obtain ⟨e', es, rfl⟩ := List.exists_cons_of_ne_nil hne
            refine ⟨e :: e' :: es, trailing, by simp, ?_, ht⟩
            intro x hx
            rcases List.mem_cons.mp hx with rfl | hx
            · exact he
            · exact hes x hx
      · exact ⟨[e], false, by simp, by simpa using he, by simp [ht, hn, print, follow]⟩

/-- A string that is taken is a list of entries with at most one comma too many. -/
theorem of_defineStr {s : Text} {c : Control} (h : (defineStr s).val = .block c) :
    ∃ es trailing, es ≠ [] ∧ (∀ e ∈ es, e.Loose) ∧ s = print es trailing ∧
      commasIn es + trailing.toNat ≤ 1 := by
  simp only [defineStr] at h
  split at h
  · rename_i hguard
    split at h
    · cases h
    · rename_i m hm
      obtain ⟨es, trailing, hne, hes, rfl⟩ := print_of_parseFrom rfl hm h
      have hcolon := count_colon_print hes trailing
      have hcomma := count_comma_print hes hne trailing
      exact ⟨es, trailing, hne, hes, rfl, by omega⟩
  · cases h

/-- Where the walk aborts, it was at an entry whose signature is none. -/
theorem abort_of_parseFrom {left evNums : ℕ} {t : Text} {last : Bool} {m : Marks}
    {control : Control} (hm : marks t last = some m)
    (h : (parseFrom evNums left control m).val = .abort) :
    ∃ before after, ∃ e : Entry, t = before ++ e.text ++ after ∧ ':' ∉ e.name ∧ ',' ∉ e.sig ∧
      ¬ Letters e.sig := by
  induction left generalizing t last m control with
  | zero => cases h
  | succ left ih =>
    obtain ⟨e, hcolon, hcomma, ht, hmark, hrest⟩ := of_marks hm
    cases hr : e.record with
    | none =>
      have hbad : ¬ Letters e.sig := by simp [← e.record_isSome, hr]
      exact ⟨[], m.sEnd, e, by simpa using ht, hcolon, hcomma, hbad⟩
    | some r =>
      rw [hmark] at h
      simp only [parseFrom_marksAt hr, Chk.bind_val] at h
      rcases hrest with ⟨n, hn⟩ | hn
      · rw [hn] at ht h
        by_cases hnil : n = []
        · rw [hnil] at h
          cases h
        · rw [parseRest_cons hnil] at h
          split at h
          · cases h
          · rename_i m' hm'
            obtain ⟨before, after, e', rfl, hbad⟩ := ih hm' h
            exact ⟨e.text ++ ',' :: before, after, e', by simp [ht], hbad⟩
      · rw [hn] at h
        cases h

theorem abort_of_defineStr {s : Text} (h : (defineStr s).val = .abort) :
    ∃ before after, ∃ e : Entry, s = before ++ e.text ++ after ∧ ':' ∉ e.name ∧ ',' ∉ e.sig ∧
      ¬ Letters e.sig := by
  simp only [defineStr] at h
  split at h
  · split at h
    · cases h
    · rename_i m hm
      exact abort_of_parseFrom hm h
  · cases h

theorem initFrom_entries {es : List Entry} (h : ∀ e ∈ es, e.Loose) (size : ℕ)
    (filled : List (Option EventRecord)) :
    (initFrom filled.length ⟨size, filled ++ List.replicate es.length none⟩
        (es.map Entry.name) (es.map Entry.sig)).val =
      .block ⟨size, filled ++ es.map Entry.record⟩ := by
  induction es generalizing filled with
  | nil => simp [initFrom]
  | cons e es ih =>
    obtain ⟨r, hr⟩ := Option.isSome_iff_exists.mp (e.record_isSome.mpr (h e (by simp)).letters)
    have hnext := ih (fun x hx => h x (List.mem_cons_of_mem _ hx)) (filled ++ [some r])
    simp only [List.map_cons, List.length_cons, initFrom, Chk.bind_val, e.init_eq, hr, put_next]
    simpa using hnext

theorem definePairwise_entries {es : List Entry} (h : ∀ e ∈ es, e.Loose) :
    (definePairwise (es.map Entry.name) (es.map Entry.sig)).val = .block (ofEntries es) := by
  have := initFrom_entries h ((headBytes + es.length * EventRecord.bytes) % 2 ^ 64) []
  simpa [definePairwise, allocate, ofEntries] using this

end Control

/-! ### Reading back what was printed -/

/-- An entry within the limits of a record. -/
structure Entry.Fits (e : Entry) : Prop extends Entry.Ok e where
  name_le : e.name.length ≤ 63
  sig_le : e.sig.length ≤ 31

theorem commasIn_eq_zero {es : List Entry} :
    Control.commasIn es = 0 ↔ ∀ e ∈ es, ',' ∉ e.name := by
  simp [Control.commasIn, List.sum_eq_zero_iff, List.count_eq_zero]

theorem defineStr_ok_entries {es : List Entry} (h : ∀ e ∈ es, e.Ok) (hne : es ≠ [])
    (trailing : Bool) : Control.defineStr (print es trailing) =
      ⟨.block (Control.ofEntries es), es.all Entry.short⟩ := by
  refine Control.defineStr_print (fun e he => (h e he).toLoose) hne ?_
  rw [commasIn_eq_zero.mpr fun e he => (h e he).comma]
  cases trailing <;> decide

/-- The string of the entries, with or without the comma at its end, gives the block their two arrays
    give, no assertion fails and no local array is written outside. -/
def ReadBack (es : List Entry) : Prop :=
  ∀ trailing, ∃ c, (Control.defineStr (print es trailing)).val = .block c ∧
    (Control.definePairwise (es.map Entry.name) (es.map Entry.sig)).val = .block c ∧
    (Control.defineStr (print es trailing)).ok = true

/-- The arrays have one character less than a name of the full length needs. -/
theorem readBack_iff {es : List Entry} (hne : es ≠ []) (hes : ∀ e ∈ es, e.Fits) :
    ReadBack es ↔ ∀ e ∈ es, e.name.length ≤ 62 := by
  have hok : ∀ e ∈ es, e.Ok := fun e he => (hes e he).toOk
  have hshort : es.all Entry.short = true ↔ ∀ e ∈ es, e.name.length ≤ 62 := by
    rw [List.all_eq_true]
    refine forall₂_congr fun e he => ?_
    simp [Entry.short, (hes e he).sig_le]
  constructor
  · intro h
    obtain ⟨c, -, -, hflag⟩ := h false
    rwa [defineStr_ok_entries hok hne, hshort] at hflag
  · intro h trailing
    refine ⟨Control.ofEntries es, ?_, ?_, ?_⟩
    · rw [defineStr_ok_entries hok hne]
    · exact Control.definePairwise_entries fun e he => (hok e he).toLoose
    · rwa [defineStr_ok_entries hok hne, hshort]

/-- Two events within the arrays. -/
theorem readBack_two :
    ReadBack [⟨['r', 'e', 'a', 'd'], ['S', 'l']⟩, ⟨['c'], ['i']⟩] := by
  refine (readBack_iff (by simp) ?_).mpr (by decide)
  intro e he
  simp only [List.mem_cons, List.not_mem_nil, or_false] at he
  rcases he with rfl | rfl <;>
    exact { colon := by decide, letters := by decide, comma := by decide,
            name_le := by decide, sig_le := by decide }

/-- A name of 63 characters. -/
def longName : Entry := ⟨List.replicate 63 'a', ['i']⟩

/-- Its terminating NUL is written behind the array. -/
theorem not_readBack_longName : longName.Fits ∧ ¬ ReadBack [longName] := by
  have hfits : longName.Fits :=
    { colon := by decide, letters := by decide, comma := by decide,
      name_le := by decide, sig_le := by decide }
  refine ⟨hfits, fun h => ?_⟩
  obtain ⟨c, -, -, hflag⟩ := h false
  rw [defineStr_ok_entries (by simpa using hfits.toOk) (by simp)] at hflag
  exact absurd hflag (by decide)

/-! ### What is taken -/

/-- The string is taken if and only if it has the format, and then the block has one written record
    for each entry; a record's name has no separator in it; what is not taken is answered with
    `NULL`, or with an abort at an entry whose signature is none. -/
structure TakesFormat (s : Text) : Prop where
  taken : (∃ c, (Control.defineStr s).val = .block c) ↔ Grammar s
  records : ∀ es trailing, es ≠ [] → (∀ e ∈ es, e.Ok) → s = print es trailing →
    (Control.defineStr s).val = .block (Control.ofEntries es)
  filled : ∀ c, (Control.defineStr s).val = .block c →
    ∀ r ∈ c.events, ∃ x, r = some x ∧ ':' ∉ x.name ∧ ',' ∉ x.name
  aborts : (Control.defineStr s).val = .abort → ∃ before after, ∃ e : Entry,
    s = before ++ e.text ++ after ∧ ':' ∉ e.name ∧ ',' ∉ e.sig ∧ ¬ Letters e.sig

/-- A list of entries without a comma at its end, where a piece without a colon stands before one of
    the entries. -/
def Stray (s : Text) : Prop :=
  ∃ es x e es', ':' ∉ x ∧ ',' ∉ x ∧ (∀ y ∈ es ++ e :: es', Entry.Ok y) ∧
    s = print (es ++ ⟨x ++ ',' :: e.name, e.sig⟩ :: es') false

theorem Entry.Ok.filled {e : Entry} (he : e.Ok) :
    ∃ x, e.record = some x ∧ ':' ∉ x.name ∧ ',' ∉ x.name := by
  obtain ⟨x, hx⟩ := Option.isSome_iff_exists.mp (e.record_isSome.mpr he.letters)
  refine ⟨x, hx, ?_⟩
  have hname : x.name = strncpy 63 e.name ++ ['\x00'] := by
    simp only [record, EventRecord.init, Chk.bind_val] at hx
    split at hx <;> cases hx
    rfl
  have hsub : ∀ c, c ≠ '\x00' → c ∉ e.name → c ∉ x.name := by
    intro c hc hmem
    rw [hname]
    simp only [strncpy, List.mem_append, List.mem_replicate, List.mem_singleton, not_or, hc,
      and_false, not_false_eq_true, and_true]
    exact fun h => hmem (List.mem_of_mem_take h)
  exact ⟨hsub _ (by decide) he.colon, hsub _ (by decide) he.comma⟩

/-- One comma in all names stands in one name, and cuts it in two. -/
theorem stray_of_commasIn {es : List Entry} (h : ∀ e ∈ es, e.Loose)
    (hone : Control.commasIn es = 1) :
    ∃ pre x e post, ':' ∉ x ∧ ',' ∉ x ∧ (∀ y ∈ pre ++ e :: post, Entry.Ok y) ∧
      es = pre ++ ⟨x ++ ',' :: e.name, e.sig⟩ :: post := by
  induction es with
  | nil => cases hone
  | cons e es ih =>
    have h' : ∀ x ∈ es, x.Loose := fun x hx => h x (List.mem_cons_of_mem _ hx)
    have he := h e (by simp)
    have hsum : e.name.count ',' + Control.commasIn es = 1 := by
      simpa [Control.commasIn] using hone
    by_cases hc : ',' ∈ e.name
    · obtain ⟨x, y, hxy⟩ := List.append_of_mem hc
      have hcolon := he.colon
      rw [hxy] at hcolon hsum
      simp only [List.mem_append, List.mem_cons, not_or] at hcolon
      simp only [List.count_append, List.count_cons_self] at hsum
      have hx : x.count ',' = 0 := by omega
      have hy : y.count ',' = 0 := by omega
      have hrest : Control.commasIn es = 0 := by omega
      refine ⟨[], x, ⟨y, e.sig⟩, es, hcolon.1, List.count_eq_zero.mp hx, ?_, by simp [← hxy]⟩
      intro z hz
      rcases List.mem_cons.mp hz with rfl | hz
      · exact { colon := hcolon.2.2, letters := he.letters, comma := List.count_eq_zero.mp hy }
      · exact { toLoose := h' z hz, comma := commasIn_eq_zero.mp hrest z hz }
    · have hzero : e.name.count ',' = 0 := List.count_eq_zero.mpr hc
      obtain ⟨pre, x, e', post, hx, hx', hok, rfl⟩ := ih h' (by omega)
      refine ⟨e :: pre, x, e', post, hx, hx', ?_, rfl⟩
      intro y hy
      rcases List.mem_cons.mp hy with rfl | hy
      · exact { toLoose := he, comma := hc }
      · exact hok y hy

/-- An entry ends with its colon or a letter, so only the comma at the end is a last character. -/
theorem getLast_print {e : Entry} {es : List Entry} (h : ∀ x ∈ e :: es, x.Loose)
    (trailing : Bool) :
    (print (e :: es) trailing).getLast? = some ',' ↔ trailing = true := by
  induction es generalizing e with
  | nil =>
    cases trailing with
    | true => simp [print, follow]
    | false =>
      simp only [print, follow, Entry.text, Bool.false_eq_true, if_false, List.append_nil, iff_false]
      intro hlast
      rw [List.getLast?_append_of_ne_nil _ (by simp)] at hlast
      rcases List.mem_cons.mp (List.mem_of_getLast? hlast) with hc | hc
      · exact absurd hc (by decide)
      · exact (h e (by simp)).letters.not_mem_comma hc
  | cons e' es ih =>
    have hsplit : print (e :: e' :: es) trailing = (e.text ++ [',']) ++ print (e' :: es) trailing := by
      simp [print, follow]
    have hne : print (e' :: es) trailing ≠ [] := by simp [print, Entry.text]
    rw [hsplit, List.getLast?_append_of_ne_nil _ hne]
    exact ih fun x hx => h x (List.mem_cons_of_mem _ hx)

/-- The entries of a stray string, as the walk cuts them. -/
theorem Stray.entries {s : Text} (h : Stray s) :
    ∃ es, es ≠ [] ∧ (∀ e ∈ es, e.Loose) ∧ Control.commasIn es = 1 ∧ s = print es false := by
  obtain ⟨pre, x, e, post, hx, hx', hok, hs⟩ := h
  have he := hok e (by simp)
  refine ⟨_, by simp, ?_, ?_, hs⟩
  · intro y hy
    rw [List.mem_append, List.mem_cons] at hy
    rcases hy with hy | rfl | hy
    · exact (hok y (by simp [hy])).toLoose
    · exact ⟨by simp [hx, he.colon], he.letters⟩
    · exact (hok y (by simp [hy])).toLoose
  · have hpre : Control.commasIn pre = 0 :=
      commasIn_eq_zero.mpr fun y hy => (hok y (by simp [hy])).comma
    have hpost : Control.commasIn post = 0 :=
      commasIn_eq_zero.mpr fun y hy => (hok y (by simp [hy])).comma
    have hxc : x.count ',' = 0 := List.count_eq_zero.mpr hx'
    have hec : e.name.count ',' = 0 := List.count_eq_zero.mpr he.comma
    simp only [Control.commasIn] at hpre hpost ⊢
    simp [hpre, hpost, hxc, hec]

theorem Stray.taken {s : Text} (h : Stray s) : ∃ c, (Control.defineStr s).val = .block c := by
  obtain ⟨es, hne, hes, hone, rfl⟩ := h.entries
  exact ⟨_, by rw [Control.defineStr_print hes hne (by simp [hone])]⟩

/-- A string of the format has no comma to spare, unless it is the last character. -/
theorem Stray.not_grammar {s : Text} (h : Stray s) : ¬ Grammar s := by
  rintro ⟨es, trailing, hne, hok, hs⟩
  obtain ⟨es', hne', hes', hone, rfl⟩ := h.entries
  have hes : ∀ e ∈ es, e.Loose := fun e he => (hok e he).toLoose
  have hzero : Control.commasIn es = 0 := commasIn_eq_zero.mpr fun e he => (hok e he).comma
  have hcolon := Control.count_colon_print hes trailing
  have hcomma := Control.count_comma_print hes hne trailing
  have hcolon' := Control.count_colon_print hes' false
  have hcomma' := Control.count_comma_print hes' hne' false
  have htrailing : trailing = true := by
    cases trailing with
    | true => rfl
    | false =>
      rw [hs] at hcolon' hcomma'
      omega
  obtain ⟨e, es, rfl⟩ := List.exists_cons_of_ne_nil hne
  obtain ⟨e', es', rfl⟩ := List.exists_cons_of_ne_nil hne'
  have hlast := (getLast_print hes trailing).mpr htrailing
  rw [← hs, getLast_print hes'] at hlast
  cases hlast

theorem grammar_or_stray {s : Text} {c : Control} (h : (Control.defineStr s).val = .block c) :
    Grammar s ∨ Stray s := by
  obtain ⟨es, trailing, hne, hes, hs, hcommas⟩ := Control.of_defineStr h
  rcases Nat.eq_zero_or_pos (Control.commasIn es) with hzero | hpos
  · have hcomma := commasIn_eq_zero.mp hzero
    exact .inl ⟨es, trailing, hne, fun e he => { toLoose := hes e he, comma := hcomma e he }, hs⟩
  · right
    obtain ⟨pre, x, e, post, hx, hx', hok, rfl⟩ := stray_of_commasIn hes (by omega)
    have htrailing : trailing = false := by
      cases trailing with
      | false => rfl
      | true =>
        simp only [Bool.toNat_true] at hcommas
        omega
    exact ⟨pre, x, e, post, hx, hx', hok, htrailing ▸ hs⟩

/-- Exactly the strings with one stray piece are taken against the format. -/
theorem takesFormat_iff (s : Text) : TakesFormat s ↔ ¬ Stray s := by
  constructor
  · intro h hstray
    exact hstray.not_grammar (h.taken.mp hstray.taken)
  · intro hstray
    have hrecords : ∀ es trailing, es ≠ [] → (∀ e ∈ es, e.Ok) → s = print es trailing →
        (Control.defineStr s).val = .block (Control.ofEntries es) := by
      rintro es trailing hne hes rfl
      rw [defineStr_ok_entries hes hne]
    refine ⟨⟨?_, ?_⟩, hrecords, ?_, Control.abort_of_defineStr⟩
    · rintro ⟨c, hc⟩
      exact (grammar_or_stray hc).resolve_right hstray
    · rintro ⟨es, trailing, hne, hes, hs⟩
      exact ⟨_, hrecords es trailing hne hes hs⟩
    · intro c hc r hr
      obtain ⟨es, trailing, hne, hes, hs⟩ := (grammar_or_stray hc).resolve_right hstray
      rw [hrecords es trailing hne hes hs] at hc
      cases hc
      obtain ⟨e, he, rfl⟩ := List.mem_map.mp hr
      exact (hes e he).filled

/-- `a,b:i` is taken: one event, and its name has a comma in it. -/
theorem not_takesFormat_stray :
    (Control.defineStr ['a', ',', 'b', ':', 'i']).val =
      .block (Control.ofEntries [⟨['a', ',', 'b'], ['i']⟩]) ∧
    ¬ TakesFormat ['a', ',', 'b', ':', 'i'] := by
  have hstray : Stray ['a', ',', 'b', ':', 'i'] := by
    refine ⟨[], ['a'], ⟨['b'], ['i']⟩, [], by decide, by decide, ?_, rfl⟩
    intro e he
    obtain rfl : e = ⟨['b'], ['i']⟩ := by simpa using he
    exact { colon := by decide, letters := by decide, comma := by decide }
  refine ⟨by decide +kernel, fun h => ?_⟩
  exact hstray.not_grammar (h.taken.mp hstray.taken)

end Vamos
