import Mathlib.Tactic

/-! Directories of files. A name stands for a file, and a file keeps its contents when its name is
    taken away or given to another one. Some names are private to one writer, who makes a file ready
    under such a name and then renames it:

        open tmp ─▶ write ─▶ … ─▶ write ─▶ rename tmp name
                                             └─ from here on the file is sealed

    A sealed file has no private name any more, and never gets one again. -/

namespace Schemes

/-- Files have numbers; from `fresh` on there are none. -/
structure Dir (ν φ : Type) where
  inode : ν → Option ℕ
  file : ℕ → φ
  fresh : ℕ

namespace Dir

variable {ν φ : Type}

/-- A change to the contents of a file. -/
def write (i : ℕ) (g : φ → φ) (d : Dir ν φ) : Dir ν φ :=
  { d with file := Function.update d.file i (g (d.file i)) }

/-- No two names stand for one file, and what a name stands for is as it ought to be. -/
structure Ok (P : ν → φ → Prop) (d : Dir ν φ) : Prop where
  known : ∀ n i, d.inode n = some i → i < d.fresh
  apart : ∀ n n' i, d.inode n = some i → d.inode n' = some i → n = n'
  good : ∀ n i, d.inode n = some i → P n (d.file i)

/-- A file that has no private name. -/
def Sealed (T : ν → Prop) (i : ℕ) (d : Dir ν φ) : Prop := i < d.fresh ∧ ∀ n, T n → d.inode n ≠ some i

/-- Sealed files stay sealed, and change only as `R` allows. -/
def Keeps (T : ν → Prop) (R : φ → φ → Prop) (d d' : Dir ν φ) : Prop :=
  ∀ i, Sealed T i d → Sealed T i d' ∧ R (d.file i) (d'.file i)

/-- The private names and all files are as they were; there may be new files. -/
structure Untouched (T : ν → Prop) (d d' : Dir ν φ) : Prop where
  fresh : d.fresh ≤ d'.fresh
  inode : ∀ n, T n → d'.inode n = d.inode n
  file : ∀ i < d.fresh, d'.file i = d.file i

section Relations

variable {P : ν → φ → Prop} {T : ν → Prop} {R : φ → φ → Prop} {d d' d'' : Dir ν φ} {n : ν}
  {g : φ → φ} {i : ℕ}

theorem write_file (k : ℕ) : (d.write i g).file k = if k = i then g (d.file i) else d.file k :=
  Function.update_apply _ _ _ _

theorem Keeps.refl (hR : ∀ x, R x x) (d : Dir ν φ) : Keeps T R d d := fun _ h => ⟨h, hR _⟩

theorem Keeps.trans (hR : ∀ {x y z}, R x y → R y z → R x z) (h : Keeps T R d d')
    (h' : Keeps T R d' d'') : Keeps T R d d'' := by
  intro i hi
  obtain ⟨h1, r1⟩ := h i hi
  obtain ⟨h2, r2⟩ := h' i h1
  exact ⟨h2, hR r1 r2⟩

theorem Untouched.refl (d : Dir ν φ) : Untouched T d d := ⟨le_rfl, fun _ _ => rfl, fun _ _ => rfl⟩

theorem Untouched.trans (h : Untouched T d d') (h' : Untouched T d' d'') : Untouched T d d'' :=
  ⟨h.fresh.trans h'.fresh, fun n hn => (h'.inode n hn).trans (h.inode n hn),
    fun i hi => (h'.file i (hi.trans_le h.fresh)).trans (h.file i hi)⟩

theorem Untouched.keeps (hR : ∀ x, R x x) (h : Untouched T d d') : Keeps T R d d' := by
  refine fun i hi => ⟨⟨hi.1.trans_le h.fresh, fun n hn => ?_⟩, ?_⟩
  · rw [h.inode n hn]; exact hi.2 n hn
  · rw [h.file i hi.1]; exact hR _

/-- A file that stands under a public name is sealed. -/
theorem Ok.sealed (h : Ok P d) (hn : ¬ T n) (hi : d.inode n = some i) : Sealed T i d :=
  ⟨h.known n i hi, fun m hm hmi => hn (h.apart m n i hmi hi ▸ hm)⟩

theorem Ok.write (h : Ok P d) (hg : ∀ m, d.inode m = some i → P m (g (d.file i))) :
    Ok P (d.write i g) := by
  refine ⟨h.known, h.apart, fun m k hm => ?_⟩
  rw [write_file]
  split
  case isTrue hk => exact hk ▸ hg m (hk ▸ hm)
  case isFalse => exact h.good m k hm

/-- A file with a private name may be written as one likes. -/
theorem Keeps.write (hR : ∀ x, R x x) (hn : T n) (hi : d.inode n = some i) :
    Keeps T R d (d.write i g) := by
  refine fun k hk => ⟨hk, ?_⟩
  rw [write_file, if_neg]
  · exact hR _
  · rintro rfl
    exact hk.2 n hn hi

/-- A sealed one only as `R` allows. -/
theorem Keeps.edit (hR : ∀ x, R x x) (hg : ∀ x, R x (g x)) : Keeps T R d (d.write i g) := by
  refine fun k hk => ⟨hk, ?_⟩
  rw [write_file]
  split
  case isTrue h => rw [h]; exact hg _
  case isFalse => exact hR _

end Relations

/-! ### Names -/

variable [DecidableEq ν]

/-- A new file under a name that stands for none. -/
def make (n : ν) (x : φ) (d : Dir ν φ) : Dir ν φ where
  inode := Function.update d.inode n (some d.fresh)
  file := Function.update d.file d.fresh x
  fresh := d.fresh + 1

/-- Nothing happens if there is no such file. -/
def rename (a b : ν) (d : Dir ν φ) : Dir ν φ :=
  match d.inode a with
  | none => d
  | some i => { d with inode := Function.update (Function.update d.inode b (some i)) a none }

def unlink (n : ν) (d : Dir ν φ) : Dir ν φ := { d with inode := Function.update d.inode n none }

variable {P : ν → φ → Prop} {T : ν → Prop} {R : φ → φ → Prop} {d : Dir ν φ} {n a b : ν} {x : φ} {i : ℕ}

theorem make_inode (m : ν) : (d.make n x).inode m = if m = n then some d.fresh else d.inode m :=
  Function.update_apply _ _ _ _

theorem make_file (k : ℕ) : (d.make n x).file k = if k = d.fresh then x else d.file k :=
  Function.update_apply _ _ _ _

theorem unlink_inode (m : ν) : (d.unlink n).inode m = if m = n then none else d.inode m :=
  Function.update_apply _ _ _ _

theorem rename_inode (hi : d.inode a = some i) (m : ν) : (d.rename a b).inode m =
    if m = a then none else if m = b then some i else d.inode m := by
  simp only [rename, hi, Function.update_apply]

theorem rename_file : (d.rename a b).file = d.file := by
  unfold rename
  split <;> rfl

theorem rename_fresh : (d.rename a b).fresh = d.fresh := by
  unfold rename
  split <;> rfl

/-! ### What the operations keep -/

theorem Ok.make (h : Ok P d) (hx : P n x) : Ok P (d.make n x) := by
  refine ⟨fun m i hm => ?_, fun m m' i hm hm' => ?_, fun m i hm => ?_⟩
  · rw [make_inode] at hm
    show i < d.fresh + 1
    split at hm
    · have := Option.some.inj hm
      omega
    · exact (h.known m i hm).trans (Nat.lt_succ_self _)
  · rw [make_inode] at hm hm'
    split at hm <;> split at hm'
    case isTrue.isTrue h1 h2 => exact h1.trans h2.symm
    case isTrue.isFalse =>
      have := h.known m' i hm'
      have := Option.some.inj hm
      omega
    case isFalse.isTrue =>
      have := h.known m i hm
      have := Option.some.inj hm'
      omega
    case isFalse.isFalse => exact h.apart m m' i hm hm'
  · rw [make_inode] at hm
    rw [make_file]
    split at hm
    case isTrue hmn =>
      rw [if_pos (Option.some.inj hm).symm, hmn]
      exact hx
    case isFalse =>
      rw [if_neg (h.known m i hm).ne]
      exact h.good m i hm

theorem Ok.rename (h : Ok P d) (hi : d.inode a = some i) (hg : P b (d.file i)) :
    Ok P (d.rename a b) := by
  refine ⟨fun m k hm => ?_, fun m m' k hm hm' => ?_, fun m k hm => ?_⟩
  · rw [rename_inode hi] at hm
    rw [rename_fresh]
    split at hm
    · cases hm
    · split at hm
      · exact h.known a k (hi.trans hm)
      · exact h.known m k hm
  · rw [rename_inode hi] at hm hm'
    split at hm
    · cases hm
    split at hm'
    · cases hm'
    split at hm <;> split at hm'
    case isTrue.isTrue h1 h2 => exact h1.trans h2.symm
    case isTrue.isFalse => exact absurd (h.apart a m' k (hi.trans hm) hm').symm ‹_›
    case isFalse.isTrue => exact absurd (h.apart m a k hm (hi.trans hm')) ‹_›
    case isFalse.isFalse => exact h.apart m m' k hm hm'
  · rw [rename_inode hi] at hm
    rw [rename_file]
    split at hm
    · cases hm
    · split at hm
      case isTrue hmb => exact hmb ▸ Option.some.inj hm ▸ hg
      case isFalse => exact h.good m k hm

theorem Ok.unlink (h : Ok P d) : Ok P (d.unlink n) := by
  have hof : ∀ m i, (d.unlink n).inode m = some i → d.inode m = some i := by
    intro m i hm
    rw [unlink_inode] at hm
    split at hm
    · cases hm
    · exact hm
  exact ⟨fun m i hm => h.known m i (hof m i hm), fun m m' i hm hm' =>
    h.apart m m' i (hof m i hm) (hof m' i hm'), fun m i hm => h.good m i (hof m i hm)⟩

/-! ### Sealed files -/

theorem Untouched.make (hn : ¬ T n) : Untouched T d (d.make n x) := by
  refine ⟨Nat.le_succ _, fun m hm => ?_, fun i hi => ?_⟩
  · rw [make_inode, if_neg (fun h : m = n => hn (h ▸ hm))]
  · rw [make_file, if_neg hi.ne]

theorem Untouched.unlink (hn : ¬ T n) : Untouched T d (d.unlink n) := by
  refine ⟨le_rfl, fun m hm => ?_, fun _ _ => rfl⟩
  rw [unlink_inode, if_neg (fun h : m = n => hn (h ▸ hm))]

theorem Keeps.make (hR : ∀ x, R x x) : Keeps T R d (d.make n x) := by
  refine fun i hi => ⟨⟨hi.1.trans (Nat.lt_succ_self _), fun m hm => ?_⟩, ?_⟩
  · rw [make_inode]
    split
    · exact fun h => absurd (Option.some.inj h) hi.1.ne'
    · exact hi.2 m hm
  · rw [make_file, if_neg hi.1.ne]; exact hR _

theorem Keeps.rename (hR : ∀ x, R x x) (hb : ¬ T b) : Keeps T R d (d.rename a b) := by
  cases ha : d.inode a with
  | none =>
    rw [Dir.rename, ha]
    exact .refl hR d
  | some k =>
    refine fun i hi => ⟨⟨by rw [rename_fresh]; exact hi.1, fun m hm => ?_⟩, ?_⟩
    · rw [rename_inode ha, if_neg (fun h : m = b => hb (h ▸ hm))]
      split
      · exact nofun
      · exact hi.2 m hm
    · rw [rename_file]; exact hR _

theorem Keeps.unlink (hR : ∀ x, R x x) : Keeps T R d (d.unlink n) := by
  refine fun i hi => ⟨⟨hi.1, fun m hm => ?_⟩, hR _⟩
  rw [unlink_inode]
  split
  · exact nofun
  · exact hi.2 m hm

end Dir

end Schemes
