import Mathlib.Tactic
import VamosBuffers.Core.Source

/-! `src/streams/streams.c`: a monitor is told on its command line where its streams come from, by
    one entry for each.

        monitor  trace:generic:/key1  calls:calls:/key2
                   │      │       └── key
                   │      └── source
                   └── name of the stream

    The entry of a stream is the first one that begins with its name. The flag of a result says that
    the local arrays of 256 characters were written only inside. -/

namespace Vamos
open Schemes

namespace Streams

/-- `find_next_part`. -/
def findNextPart (params : Text) : Option Text :=
  match strchr ':' params with
  | none => none
  | some [] => none
  | some [_] => none
  | some (_ :: params) => some params

/-- `get_next_part`: what `out` holds afterwards, and the parameters after that part. -/
def getNextPart (params : Option Text) (out : Text) (delim : Char) : Chk (Text × Option Text) :=
  match params with
  | none => pure (out, none)
  | some [] => pure (out, none)
  | some (c :: params) =>
    match strchr delim params with
    | some paramEnd => do
      let len := (c :: params).length - paramEnd.length
      -- out[param_end - params] = 0
      Chk.require (len < 256)
      pure ((c :: params).take len, some paramEnd.tail)
    | none => do
      Chk.require ((c :: params).length < 256)
      pure (c :: params, none)

/-- `get_spec`. -/
def getSpec (streamName : Text) (argv : List Text) : Option Text :=
  argv.tail.find? fun arg => strncmpEq streamName.length streamName arg

/-- The sources that are known. -/
inductive Source where
  | calls | regex | regexrw | drregex | generic
  deriving DecidableEq, Repr

/-- The name of a source on the command line. -/
def Source.text : Source → Text
  | calls => ['c', 'a', 'l', 'l', 's']
  | regex => ['r', 'e', 'g', 'e', 'x']
  | regexrw => ['r', 'e', 'g', 'e', 'x', 'r', 'w']
  | drregex => ['d', 'r', 'r', 'e', 'g', 'e', 'x']
  | generic => ['g', 'e', 'n', 'e', 'r', 'i', 'c']

/-- What is printed to `stderr`. -/
inductive Message where
  | notFound (streamName : Text)
  | noSource (streamName : Text)
  | invalidSource
  | needsKey (source : Source)
  | onlyOneParameter
  | ignoringFurther (source : Source)
  | unknown
  deriving DecidableEq, Repr

/-- `avail_streams`. -/
def availStreams : List (String × String) :=
  [("calls", "connect to dynamorio libfuns.so and track calls of a function"),
    ("files", "open given files and read from them (the files can be pipes)"),
    ("regex", "read stdin and parse it using regexes"),
    ("regexrw", "read stdin and parse it using regexes in a separate process"),
    ("drregex", "read stdin and stdout and parse it using regexes (DynamoRIO based)"),
    ("generic", "receive events based purely on the information from source")]

/-- `"  %-16s\t:%s\n"`. -/
def availLine (stream : String × String) : String :=
  "  " ++ stream.1.pushn ' ' (16 - stream.1.length) ++ "\t:" ++ stream.2 ++ "\n"

def Message.text : Message → String
  | notFound streamName =>
    "error: did not find spec for stream '" ++ String.ofList streamName ++ "'\n"
  | noSource streamName =>
    "error: no source specified for stream with name '" ++ String.ofList streamName ++ "'\n"
  | invalidSource => "error: invalid source specified\n"
  | needsKey source =>
    "error: source '" ++ String.ofList source.text ++ "' needs the key to SHM as parameter\n"
  | onlyOneParameter => "warning: source 'calls' takes only one parameter, ignoring others\n"
  | ignoringFurther source =>
    "warning: source '" ++ String.ofList source.text ++ "' ignoring further parameter (FOR NOW)\n"
  | unknown => "Unknown stream. Available streams:\n" ++ String.join (availStreams.map availLine)

/-- What comes of a stream: `NULL`, `abort`, or the call that makes it, `vms_create_funs_stream` and
    so on, with its arguments. -/
inductive Made (η : Type) where
  | null
  | abort
  | stream (source : Source) (key streamName : Text) (holeHandling : Option η)
  deriving DecidableEq, Repr

structure Created (η : Type) where
  printed : Option Message
  made : Made η
  deriving DecidableEq, Repr

variable {η : Type}

/-- The branch of one source: it wants a key, and `make` says what comes of the key where there are
    further parameters or none. -/
def takeKey (source : Source) (next : Option Text) (make : Text → Option Text → Created η) :
    Chk (Created η) :=
  match next with
  | none => pure ⟨some (.needsKey source), .null⟩
  | some [] => pure ⟨some (.needsKey source), .null⟩
  | some params => do
    let (key, next) ← getNextPart (some params) [] ';'
    pure (make key next)

/-- The warning of four of the sources. -/
def ignoring (source : Source) (next : Option Text) : Option Message :=
  if next.isSome then some (.ignoringFurther source) else none

/-- `vms_stream_create`. -/
def streamCreate (streamName spec : Text) (holeHandling : Option η) : Chk (Created η) :=
  match findNextPart spec with
  | none => pure ⟨some (.noSource streamName), .null⟩
  | some params => do
    let (source, next) ← getNextPart (some params) [] ':'
    if source = [] then pure ⟨some .invalidSource, .null⟩
    else if strncmpEq 6 source Source.calls.text then
      takeKey .calls next fun key next =>
        -- further parameters are not ignored here
        if next.isSome then ⟨some .onlyOneParameter, .null⟩
        else ⟨none, .stream .calls key streamName none⟩
    else if strncmpEq 6 source Source.regex.text then
      takeKey .regex next fun key next =>
        ⟨ignoring .regex next, .stream .regex key streamName holeHandling⟩
    else if strncmpEq 8 source Source.regexrw.text then
      takeKey .regexrw next fun key next =>
        ⟨ignoring .regexrw next, .stream .regexrw key streamName none⟩
    else if strncmpEq 8 source Source.drregex.text then
      takeKey .drregex next fun key next =>
        ⟨ignoring .drregex next, .stream .drregex key streamName none⟩
    else if strncmpEq 8 source Source.generic.text then
      takeKey .generic next fun key next =>
        ⟨ignoring .generic next, .stream .generic key streamName holeHandling⟩
    else pure ⟨some .unknown, .abort⟩

/-- `vms_stream_create_from_argv`. -/
def streamCreateFromArgv (streamName : Text) (argv : List Text) (holeHandling : Option η) :
    Chk (Created η) :=
  match getSpec streamName argv with
  | none => pure ⟨some (.notFound streamName), .null⟩
  | some spec => streamCreate streamName spec holeHandling

/-- The part of an entry before its first colon. -/
def nameOf (entry : Text) : Text := entry.takeWhile (· ≠ ':')

/-- The entry that a stream ought to get. -/
def named (streamName : Text) (argv : List Text) : Option Text :=
  argv.tail.find? fun entry => nameOf entry = streamName

/-- An entry `<name>:<source>:<key>`. -/
structure Formed (entry : Text) (source : Source) (key : Text) : Prop where
  eq : ∃ name, ':' ∉ name ∧ entry = name ++ ':' :: (source.text ++ ':' :: key)
  key_ne : key ≠ []
  key_one : ';' ∉ key
  key_lt : key.length < 256

/-- The stream gets the first entry of its name; it gets `NULL` for want of an entry exactly when
    there is none, and where the entries are well formed it gets it for nothing else. -/
structure OwnSpec (streamName : Text) (argv : List Text) (holeHandling : Option η) : Prop where
  uses : getSpec streamName argv = named streamName argv
  found : ∀ e, named streamName argv = some e →
    streamCreateFromArgv streamName argv holeHandling = streamCreate streamName e holeHandling
  missing : (streamCreateFromArgv streamName argv holeHandling).val =
    ⟨some (.notFound streamName), .null⟩ ↔ named streamName argv = none
  fails : (∀ e ∈ argv.tail, ∃ source key, Formed e source key) →
    ((streamCreateFromArgv streamName argv holeHandling).val.made = .null ↔
      named streamName argv = none)

/-- So does each of several streams, and no two of them get the same. -/
structure OwnSpecs (names : List Text) (argv : List Text) (holeHandling : Option η) : Prop where
  own : ∀ n ∈ names, OwnSpec n argv holeHandling
  apart : ∀ n ∈ names, ∀ n' ∈ names, n ≠ n' →
    ∀ e, getSpec n argv = some e → getSpec n' argv ≠ some e

/-- No entry in front of the first one of that very name has a longer name that begins with it. -/
def NoLongerName (streamName : Text) (argv : List Text) : Prop :=
  ∀ e ∈ argv.tail.takeWhile (fun e => nameOf e ≠ streamName), ¬ streamName <+: nameOf e

instance (streamName : Text) (argv : List Text) : Decidable (NoLongerName streamName argv) :=
  List.decidableBAll _ _

/-! ### The search -/

/-- Two searches, the second for what the first finds, too, come to the same exactly when the first
    one finds nothing before the second one does. -/
theorem find?_eq_find?_iff {α : Type} {p q : α → Bool} (h : ∀ x, q x → p x) {xs : List α} :
    xs.find? p = xs.find? q ↔ ∀ x ∈ xs.takeWhile (fun x => !q x), ¬ p x := by
  induction xs with
  | nil => simp
  | cons x xs ih =>
    by_cases hq : q x
    · simp [hq, h x hq]
    · by_cases hp : p x
      · -- the second search goes on, and does not come back to `x`
        have hne : xs.find? q ≠ some x := fun he => hq (List.find?_some he)
        simp [hp, hq, Ne.symm hne]
      · simp [hp, hq, ih]

/-- A name without a colon begins an entry if and only if it begins the entry's name. -/
theorem prefix_iff {name entry : Text} (h : ':' ∉ name) :
    name <+: entry ↔ name <+: nameOf entry := by
  constructor
  · rintro ⟨rest, rfl⟩
    have hall : ∀ c ∈ name, decide (c ≠ ':') = true := fun c hc =>
      decide_eq_true fun he => h (he ▸ hc)
    rw [nameOf, List.takeWhile_append_of_pos hall]
    exact List.prefix_append ..
  · exact fun hp => hp.trans (List.takeWhile_prefix _)

theorem strncmpEq_iff {name arg : Text} (h : ':' ∉ name) :
    strncmpEq name.length name arg ↔ name <+: nameOf arg := by
  rw [strncmpEq, decide_eq_true_iff, List.take_length, ← List.prefix_iff_eq_take, prefix_iff h]

/-- The search finds the entry that it ought to. -/
theorem getSpec_eq_iff {name : Text} (h : ':' ∉ name) (argv : List Text) :
    getSpec name argv = named name argv ↔ NoLongerName name argv := by
  have hq : ∀ e, decide (nameOf e = name) = true → strncmpEq name.length name e = true := by
    intro e he
    rw [strncmpEq_iff h, of_decide_eq_true he]
  rw [getSpec, named, find?_eq_find?_iff hq, NoLongerName]
  simp only [strncmpEq_iff h, decide_not]

/-! ### What is made of an entry -/

theorem findNextPart_form {name rest : Text} (h : ':' ∉ name) (hr : rest ≠ []) :
    findNextPart (name ++ ':' :: rest) = some rest := by
  obtain ⟨c, rest, rfl⟩ := List.exists_cons_of_ne_nil hr
  rw [findNextPart, strchr_append _ h]

/-- A part that ends with the delimiter. -/
theorem getNextPart_delim {part rest : Text} {delim : Char} (h : delim ∉ part) (hne : part ≠ [])
    (hlen : part.length < 256) (out : Text) :
    getNextPart (some (part ++ delim :: rest)) out delim = pure (part, some rest) := by
  obtain ⟨c, part, rfl⟩ := List.exists_cons_of_ne_nil hne
  have hpart : delim ∉ part := fun hm => h (List.mem_cons_of_mem c hm)
  have hend : (c :: (part ++ delim :: rest)).length - (delim :: rest).length =
      (c :: part).length := by
    simp only [List.length_cons, List.length_append]
    omega
  have htake : (c :: (part ++ delim :: rest)).take (c :: part).length = c :: part := by simp
  simp only [getNextPart, List.cons_append, strchr_append _ hpart, hend, htake, Chk.require_eq hlen,
    pure_bind, List.tail_cons]

/-- The last part. -/
theorem getNextPart_last {part : Text} {delim : Char} (h : delim ∉ part) (hne : part ≠ [])
    (hlen : part.length < 256) (out : Text) :
    getNextPart (some part) out delim = pure (part, none) := by
  obtain ⟨c, part, rfl⟩ := List.exists_cons_of_ne_nil hne
  have hpart : delim ∉ part := fun hm => h (List.mem_cons_of_mem c hm)
  simp only [getNextPart, strchr_eq_none hpart, Chk.require_eq hlen, pure_bind]

theorem takeKey_formed {source : Source} {key : Text} (hne : key ≠ []) (hone : ';' ∉ key)
    (hlen : key.length < 256) (make : Text → Option Text → Created η) :
    takeKey source (some key) make = pure (make key none) := by
  obtain ⟨c, key, rfl⟩ := List.exists_cons_of_ne_nil hne
  simp only [takeKey, getNextPart_last hone hne hlen, pure_bind]

/-- The sources that are given the way to handle holes. -/
def Source.takesHoles : Source → Bool
  | regex | generic => true
  | calls | regexrw | drregex => false

/-- A well-formed entry makes a stream. -/
theorem streamCreate_formed {entry key : Text} {source : Source} (h : Formed entry source key)
    (streamName : Text) (hole : Option η) : streamCreate streamName entry hole =
      pure ⟨none, .stream source key streamName (if source.takesHoles then hole else none)⟩ := by
  obtain ⟨⟨name, hname, rfl⟩, hne, hone, hlen⟩ := h
  obtain ⟨hcolon, hempty, hshort⟩ :
      ':' ∉ source.text ∧ source.text ≠ [] ∧ source.text.length < 256 := by
    cases source <;> decide
  rw [streamCreate, findNextPart_form hname (by simp)]
  simp only [getNextPart_delim hcolon hempty hshort, pure_bind, if_neg hempty,
    takeKey_formed hne hone hlen]
  cases source <;> rfl

theorem takeKey_printed {source : Source} {next : Option Text}
    {make : Text → Option Text → Created η} {m : Message}
    (hmake : ∀ key next, (make key next).printed ≠ some m) (hm : m ≠ .needsKey source) :
    (takeKey source next make).val.printed ≠ some m := by
  unfold takeKey
  split
  · simpa using hm.symm
  · simpa using hm.symm
  · exact hmake _ _

/-- `vms_stream_create` never says that there is no entry. -/
theorem streamCreate_printed (streamName spec : Text) (hole : Option η) :
    (streamCreate streamName spec hole).val.printed ≠ some (.notFound streamName) := by
  have hignoring : ∀ source next, ignoring source next ≠ some (.notFound streamName) := by
    intro source next
    unfold ignoring
    split <;> simp
  unfold streamCreate
  split
  · simp
  · rw [Chk.bind_val]
    generalize (getNextPart _ _ _).val = r
    obtain ⟨source, next⟩ := r
    dsimp only
    split_ifs
    · simp
    · refine takeKey_printed (fun key next => ?_) (by simp)
      split <;> simp
    · exact takeKey_printed (fun key next => hignoring _ next) (by simp)
    · exact takeKey_printed (fun key next => hignoring _ next) (by simp)
    · exact takeKey_printed (fun key next => hignoring _ next) (by simp)
    · exact takeKey_printed (fun key next => hignoring _ next) (by simp)
    · simp

/-! ### Streams and their entries -/

theorem named_form {name e : Text} {argv : List Text} (h : named name argv = some e) :
    nameOf e = name ∧ e ∈ argv.tail := by
  rw [named] at h
  have hname := List.find?_some h
  exact ⟨of_decide_eq_true hname, List.mem_of_find?_eq_some h⟩

/-- All of it follows from the search. -/
theorem ownSpec_iff {name : Text} (h : ':' ∉ name) (argv : List Text) (hole : Option η) :
    OwnSpec name argv hole ↔ NoLongerName name argv := by
  rw [← getSpec_eq_iff h]
  refine ⟨OwnSpec.uses, fun huses => ?_⟩
  cases hn : named name argv with
  | none =>
    have hrun : streamCreateFromArgv name argv hole = pure ⟨some (.notFound name), .null⟩ := by
      rw [streamCreateFromArgv, huses, hn]
    refine ⟨huses, fun e he => ?_, ?_, fun _ => ?_⟩
    · rw [hn] at he
      cases he
    · simp [hrun, hn]
    · simp [hrun, hn]
  | some e =>
    have hrun : streamCreateFromArgv name argv hole = streamCreate name e hole := by
      rw [streamCreateFromArgv, huses, hn]
    refine ⟨huses, fun e' he => ?_, ?_, fun hform => ?_⟩
    · rw [hn] at he
      cases he
      exact hrun
    · have hp := streamCreate_printed name e hole
      refine iff_of_false (fun he => hp ?_) (by simp [hn])
      rw [← hrun, he]
    · obtain ⟨source, key, he⟩ := hform e (named_form hn).2
      simp [hrun, streamCreate_formed he, hn]

/-- Every stream gets its own entry, and different streams different ones, if and only if for none
    of them an entry with a longer name that begins with its own comes first. -/
theorem ownSpecs_iff {names : List Text} (h : ∀ n ∈ names, ':' ∉ n) (argv : List Text)
    (hole : Option η) : OwnSpecs names argv hole ↔ ∀ n ∈ names, NoLongerName n argv := by
  constructor
  · exact fun hs n hn => (ownSpec_iff (h n hn) argv hole).mp (hs.own n hn)
  · intro hl
    have hown : ∀ n ∈ names, OwnSpec n argv hole := fun n hn =>
      (ownSpec_iff (h n hn) argv hole).mpr (hl n hn)
    refine ⟨hown, fun n hn n' hn' hne e he he' => hne ?_⟩
    -- the entry has one name
    rw [(hown n hn).uses] at he
    rw [(hown n' hn').uses] at he'
    rw [← (named_form he).1, (named_form he').1]

/-- The command line of a monitor of `a` and `b`. -/
def twoStreams : List Text :=
  [['m'], ['b', ':', 'c', 'a', 'l', 'l', 's', ':', 'k'],
    ['a', ':', 'r', 'e', 'g', 'e', 'x', ':', 'l']]

theorem ownSpecs_two : OwnSpecs [['a'], ['b']] twoStreams (none : Option Unit) :=
  (ownSpecs_iff (by decide) twoStreams none).mpr (by decide)

/-- The command line of a monitor of `ab` and `a`. -/
def longerFirst : List Text :=
  [['m'], ['a', 'b', ':', 'c', 'a', 'l', 'l', 's', ':', 'k'],
    ['a', ':', 'c', 'a', 'l', 'l', 's', ':', 'l']]

/-- The stream `a` gets the entry of `ab`, and so does `ab`. -/
theorem not_ownSpecs_longer : (∀ e ∈ longerFirst.tail, ∃ source key, Formed e source key) ∧
    getSpec ['a'] longerFirst = some ['a', 'b', ':', 'c', 'a', 'l', 'l', 's', ':', 'k'] ∧
    getSpec ['a', 'b'] longerFirst = getSpec ['a'] longerFirst ∧
    ¬ OwnSpecs [['a'], ['a', 'b']] longerFirst (none : Option Unit) := by
  refine ⟨fun e he => ?_, by decide, by decide, fun h => ?_⟩
  · simp only [longerFirst, List.tail_cons, List.mem_cons, List.not_mem_nil, or_false] at he
    rcases he with rfl | rfl
    · exact ⟨.calls, ['k'], ⟨['a', 'b'], by decide, rfl⟩, by decide, by decide, by decide⟩
    · exact ⟨.calls, ['l'], ⟨['a'], by decide, rfl⟩, by decide, by decide, by decide⟩
  · have huses := (h.own ['a'] List.mem_cons_self).uses
    revert huses
    decide

end Streams

end Vamos
