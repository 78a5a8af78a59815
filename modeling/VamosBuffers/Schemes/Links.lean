import Mathlib.Tactic

/-! Linked lists in memory. `f x` is the pointer stored in node `x`; `none` is the null pointer.
    Following `f` from `p` one passes the nodes `xs` and comes to `q`:

        Chain f p xs q        p ─▶ x₀ ─f▶ x₁ ─f▶ … ─f▶ q

    A doubly linked list is a chain of `next` pointers from its first node and, backwards, a chain of
    `prev` pointers from its last one; on a circle both lead from the head back to the head. The two
    edits, linking nodes in and cutting them out, are local in each of the two chains. -/

namespace Schemes

section Chain

variable {α : Type} {f g : α → Option α}

/-- The nodes passed on the way from `p` to `q`. -/
def Chain (f : α → Option α) : Option α → List α → Option α → Prop
  | p, [], q => p = q
  | p, x :: xs, q => p = some x ∧ Chain f (f x) xs q

theorem chain_append {p q : Option α} : ∀ {xs ys : List α},
    Chain f p (xs ++ ys) q ↔ ∃ r, Chain f p xs r ∧ Chain f r ys q
  | [], ys => by simp [Chain]
  | x :: xs, ys => by
    have ih : Chain f (f x) (xs ++ ys) q ↔ ∃ r, Chain f (f x) xs r ∧ Chain f r ys q := chain_append
    simp [Chain, ih, and_assoc]

/-- A chain reads the pointers of its own nodes only. -/
theorem Chain.congr {p q : Option α} : ∀ {xs : List α}, Chain f p xs q → (∀ x ∈ xs, g x = f x) →
    Chain g p xs q
  | [], h, _ => h
  | x :: xs, h, hg => by
    refine ⟨h.1, ?_⟩
    rw [hg x List.mem_cons_self]
    exact h.2.congr fun y hy => hg y (List.mem_cons_of_mem x hy)

/-- Where a chain begins. -/
theorem Chain.start {p q : Option α} {xs : List α} (h : Chain f p xs q) : p = xs.head?.or q := by
  cases xs with
  | nil => exact h
  | cons x xs => exact h.1

/-- The pointer of the last node changed: the same nodes, another end. -/
theorem Chain.retarget {p q q' : Option α} : ∀ {xs : List α}, Chain f p xs q → xs.Nodup →
    (∀ y, xs.getLast? = some y → g y = q') → (∀ x ∈ xs, xs.getLast? ≠ some x → g x = f x) →
    Chain g (xs.head?.or q') xs q'
  | [], _, _, _, _ => rfl
  | [x], h, _, hl, _ => ⟨rfl, hl x rfl⟩
  | x :: y :: xs, h, hn, hl, hg => by
    have hlast : (x :: y :: xs).getLast? = (y :: xs).getLast? := rfl
    rw [hlast] at hl hg
    -- the first node is not the last one
    have hx : (y :: xs).getLast? ≠ some x := fun hx =>
      (List.nodup_cons.mp hn).1 (List.mem_of_getLast? hx)
    refine ⟨rfl, ?_⟩
    rw [hg x List.mem_cons_self hx, h.2.1]
    exact h.2.retarget (List.nodup_cons.mp hn).2 hl
      fun z hz => hg z (List.mem_cons_of_mem x hz)

/-- Nodes linked in between `l` and `r`: the node before them has to point to the first one, and the
    last one to the node after them. -/
theorem Chain.splice {p q s t : Option α} {l ys r : List α} (h : Chain f p (l ++ r) q)
    (hn : (l ++ r).Nodup) (hy : Chain f s ys t) (hyn : ys.Nodup)
    (hl : ∀ x, l.getLast? = some x → g x = ys.head?.or (r.head?.or q))
    (hyl : ∀ x, ys.getLast? = some x → g x = r.head?.or q)
    (hg : ∀ x ∈ l ++ r, l.getLast? ≠ some x → g x = f x)
    (hgy : ∀ x ∈ ys, ys.getLast? ≠ some x → g x = f x) :
    Chain g (l.head?.or (ys.head?.or (r.head?.or q))) (l ++ (ys ++ r)) q := by
  obtain ⟨p', h1, h2⟩ := chain_append.mp h
  have hp : p' = r.head?.or q := h2.start
  obtain ⟨hnl, -, hdis⟩ := List.nodup_append.mp hn
  refine chain_append.mpr ⟨_, h1.retarget hnl hl fun x hx => hg x (List.mem_append_left r hx),
    chain_append.mpr ⟨_, hy.retarget hyn hyl hgy, ?_⟩⟩
  rw [← hp]
  refine h2.congr fun x hx => hg x (List.mem_append_right l hx) fun hlast => ?_
  exact hdis x (List.mem_of_getLast? hlast) x hx rfl

/-- Nodes cut out from between `l` and `r`: the node before them has to point to the one after them. -/
theorem Chain.cut {p q : Option α} {l ys r : List α} (h : Chain f p (l ++ (ys ++ r)) q)
    (hn : (l ++ (ys ++ r)).Nodup) (hl : ∀ x, l.getLast? = some x → g x = r.head?.or q)
    (hg : ∀ x ∈ l ++ r, l.getLast? ≠ some x → g x = f x) :
    Chain g (l.head?.or (r.head?.or q)) (l ++ r) q := by
  obtain ⟨_, h1, h2⟩ := chain_append.mp h
  obtain ⟨p', -, h3⟩ := chain_append.mp h2
  have hp : p' = r.head?.or q := h3.start
  obtain ⟨hnl, -, hdis⟩ := List.nodup_append.mp hn
  refine chain_append.mpr ⟨_, h1.retarget hnl hl fun x hx => hg x (List.mem_append_left r hx), ?_⟩
  rw [← hp]
  refine h3.congr fun x hx => hg x (List.mem_append_right l hx) fun hlast => ?_
  exact hdis x (List.mem_of_getLast? hlast) x (List.mem_append_right ys hx) rfl

/-- A node linked in between `l` and `r`: the node before it has to point to it, and it has to point
    to the node after it. -/
theorem Chain.insert {p : Option α} {l r : List α} {n : α} (h : Chain f p (l ++ r) none)
    (hn : (l ++ r).Nodup) (hl : ∀ y, l.getLast? = some y → g y = some n) (hr : g n = r.head?)
    (hg : ∀ x ∈ l ++ r, l.getLast? ≠ some x → g x = f x) :
    Chain g (l.head?.or (some n)) (l ++ n :: r) none := by
  have hs : Chain f (some n) [n] (f n) := ⟨rfl, rfl⟩
  refine h.splice hn hs (List.nodup_singleton n) hl ?_ hg ?_
  · intro x hx
    obtain rfl : n = x := by simpa using hx
    rw [hr, Option.or_none]
  · simp

/-- A node unlinked from between `l` and `r`: the node before it has to point to the one after it. -/
theorem Chain.remove {p : Option α} {l r : List α} {n : α} (h : Chain f p (l ++ n :: r) none)
    (hn : (l ++ n :: r).Nodup) (hl : ∀ y, l.getLast? = some y → g y = r.head?)
    (hg : ∀ x ∈ l ++ r, l.getLast? ≠ some x → g x = f x) : Chain g (l ++ r).head? (l ++ r) none := by
  rw [List.head?_append, ← Option.or_none (o := r.head?)]
  have h' : Chain f p (l ++ ([n] ++ r)) none := h
  exact h'.cut hn (by simpa using hl) hg

/-- The pointer of a node in a chain leads to the node after it, or to the end. -/
theorem Chain.next_eq {p q : Option α} {l r : List α} {n : α} (h : Chain f p (l ++ n :: r) q) :
    f n = r.head?.or q := by
  obtain ⟨_, -, -, h2⟩ := chain_append.mp h
  exact h2.start

end Chain

section Linked

variable {α : Type} {next prev next' prev' : α → Option α} {first last first' last' : Option α}
  {xs : List α}

/-- The nodes `xs` form a doubly linked list. -/
structure Linked (next prev : α → Option α) (first last : Option α) (xs : List α) : Prop where
  nodup : xs.Nodup
  forward : Chain next first xs none
  backward : Chain prev last xs.reverse none

namespace Linked

theorem first_eq (h : Linked next prev first last xs) : first = xs.head? := by
  rw [h.forward.start, Option.or_none]

theorem last_eq (h : Linked next prev first last xs) : last = xs.getLast? := by
  rw [h.backward.start, Option.or_none, List.head?_reverse]

theorem next_eq {l r : List α} {n : α} (h : Linked next prev first last (l ++ n :: r)) :
    next n = r.head? := by
  rw [h.forward.next_eq, Option.or_none]

theorem prev_eq {l r : List α} {n : α} (h : Linked next prev first last (l ++ n :: r)) :
    prev n = l.getLast? := by
  have hb := h.backward
  rw [List.reverse_append, List.reverse_cons, List.append_assoc, List.singleton_append] at hb
  rw [hb.next_eq, Option.or_none, List.head?_reverse]

/-- A node is the first one if there is none before it. -/
theorem first_iff {l r : List α} {n : α} (h : Linked next prev first last (l ++ n :: r)) :
    some n = first ↔ l = [] := by
  rw [h.first_eq]
  cases l with
  | nil => simp
  | cons x l =>
    have hne : n ≠ x := by
      rintro rfl
      exact (List.nodup_cons.mp h.nodup).1 (by simp)
    simpa using hne

theorem last_iff {l r : List α} {n : α} (h : Linked next prev first last (l ++ n :: r)) :
    some n = last ↔ r = [] := by
  rw [h.last_eq]
  rcases List.eq_nil_or_concat r with rfl | ⟨r', y, rfl⟩
  · simp
  · have hne : n ≠ y := by
      rintro rfl
      exact (List.nodup_cons.mp (List.nodup_append.mp h.nodup).2.1).1 (by simp)
    rw [List.concat_eq_append, ← List.cons_append, ← List.append_assoc, List.getLast?_concat]
    simpa using hne

theorem first_or {l r : List α} (h : Linked next prev first last (l ++ r)) (hl : l ≠ [])
    (x : Option α) : l.head?.or x = first := by
  obtain ⟨y, l, rfl⟩ := List.exists_cons_of_ne_nil hl
  rw [h.first_eq]
  rfl

theorem last_or {l r : List α} (h : Linked next prev first last (l ++ r)) (hr : r ≠ [])
    (x : Option α) : r.getLast?.or x = last := by
  rw [h.last_eq, List.getLast?_append]
  simp [List.getLast?_eq_some_getLast hr]

/-- A new node between `l` and `r`. -/
theorem insert {l r : List α} {n : α} (h : Linked next prev first last (l ++ r))
    (hn : n ∉ l ++ r) (hnext : next' n = r.head?) (hprev : prev' n = l.getLast?)
    (hl : ∀ y, l.getLast? = some y → next' y = some n)
    (hr : ∀ y, r.head? = some y → prev' y = some n)
    (hl' : ∀ x ∈ l ++ r, l.getLast? ≠ some x → next' x = next x)
    (hr' : ∀ x ∈ l ++ r, r.head? ≠ some x → prev' x = prev x)
    (hfirst : first' = l.head?.or (some n)) (hlast : last' = r.getLast?.or (some n)) :
    Linked next' prev' first' last' (l ++ n :: r) := by
  subst hfirst hlast
  have hb := h.backward
  have hrev := List.nodup_reverse.mpr h.nodup
  rw [List.reverse_append] at hb hrev
  refine ⟨List.nodup_middle.mpr (List.nodup_cons.mpr ⟨hn, h.nodup⟩),
    h.forward.insert h.nodup hl hnext hl', ?_⟩
  have hi := hb.insert (g := prev') (n := n) hrev (by simpa using hr) (by simpa using hprev)
    fun x hx hx' => hr' x (by simpa [or_comm] using hx) (by simpa using hx')
  rw [List.head?_reverse] at hi
  simpa using hi

/-- The node between `l` and `r` taken out. -/
theorem remove {l r : List α} {n : α} (h : Linked next prev first last (l ++ n :: r))
    (hl : ∀ y, l.getLast? = some y → next' y = r.head?)
    (hr : ∀ y, r.head? = some y → prev' y = l.getLast?)
    (hl' : ∀ x ∈ l ++ r, l.getLast? ≠ some x → next' x = next x)
    (hr' : ∀ x ∈ l ++ r, r.head? ≠ some x → prev' x = prev x)
    (hfirst : first' = (l ++ r).head?) (hlast : last' = (l ++ r).getLast?) :
    Linked next' prev' first' last' (l ++ r) := by
  subst hfirst hlast
  have hb := h.backward
  have hrev := List.nodup_reverse.mpr h.nodup
  rw [List.reverse_append, List.reverse_cons, List.append_assoc, List.singleton_append] at hb hrev
  refine ⟨(List.nodup_cons.mp (List.nodup_middle.mp h.nodup)).2,
    h.forward.remove h.nodup hl hl', ?_⟩
  have hi := hb.remove (g := prev') hrev (by simpa using hr)
    fun x hx hx' => hr' x (by simpa [or_comm] using hx) (by simpa using hx')
  rw [← List.reverse_append, List.head?_reverse] at hi
  exact hi

end Linked

end Linked

section Ring

variable {α : Type} {next prev next' prev' : α → Option α} {head p b y₀ y₁ : α}
  {xs l ys r : List α}

/-- The nodes `xs` lie on a circle, one after the other behind `head`. -/
structure Ring (next prev : α → Option α) (head : α) (xs : List α) : Prop where
  nodup : (head :: xs).Nodup
  forward : Chain next (some head) (head :: xs) (some head)
  backward : Chain prev (some head) (head :: xs.reverse) (some head)

namespace Ring

/-- A circle reads the pointers of its own nodes only. -/
theorem congr (h : Ring next prev head xs) (hn : ∀ x ∈ head :: xs, next' x = next x)
    (hp : ∀ x ∈ head :: xs, prev' x = prev x) : Ring next' prev' head xs :=
  ⟨h.nodup, h.forward.congr hn, h.backward.congr fun x hx => hp x (by simpa using hx)⟩

/-- What lies between two neighbours is where the circle is cut open: `p` is the head or the last node
    before the cut, `b` the first one after it or the head. -/
theorem exists_after (head : α) (r : List α) : ∃ b, (head :: r.reverse).getLast? = some b :=
  ⟨_, List.getLast?_eq_some_getLast (List.cons_ne_nil _ _)⟩

theorem after_or (hb : (head :: r.reverse).getLast? = some b) : r.head?.or (some head) = some b := by
  cases r with
  | nil => exact hb
  | cons x r => rwa [List.reverse_cons, ← List.cons_append, List.getLast?_concat] at hb

theorem next_eq (h : Ring next prev head (l ++ r)) (hp : (head :: l).getLast? = some p)
    (hb : (head :: r.reverse).getLast? = some b) : next p = some b := by
  obtain ⟨l', hl⟩ := List.getLast?_eq_some_iff.mp hp
  have hf := h.forward
  rw [← List.cons_append, hl, List.append_assoc, List.singleton_append] at hf
  rw [hf.next_eq, after_or hb]

/-- The head points to the first node, or to itself. -/
theorem first_eq (h : Ring next prev head xs) : next head = xs.head?.or (some head) :=
  h.forward.2.start

/-- The same circle the other way round. -/
theorem reverse (h : Ring next prev head xs) : Ring prev next head xs.reverse :=
  ⟨by simpa using h.nodup, h.backward, by rw [List.reverse_reverse]; exact h.forward⟩

theorem prev_eq (h : Ring next prev head (l ++ r)) (hp : (head :: l).getLast? = some p)
    (hb : (head :: r.reverse).getLast? = some b) : prev b = some p := by
  have hr := h.reverse
  rw [List.reverse_append] at hr
  exact hr.next_eq hb (by rwa [List.reverse_reverse])

theorem last_eq (h : Ring next prev head xs) : prev head = xs.getLast?.or (some head) := by
  rw [← List.head?_reverse]
  exact h.reverse.first_eq

variable [DecidableEq α]

/-- One direction of `splice`. -/
theorem splice_forward {s t : Option α} (h : Ring next prev head (l ++ r))
    (hp : (head :: l).getLast? = some p) (hb : (head :: r.reverse).getLast? = some b)
    (hy : Chain next s ys t) (hyn : ys.Nodup) (hd : ∀ x ∈ ys, x ∉ head :: (l ++ r))
    (h₀ : ys.head? = some y₀) (h₁ : ys.getLast? = some y₁) :
    Chain (Function.update (Function.update next y₁ (some b)) p (some y₀)) (some head)
      (head :: (l ++ (ys ++ r))) (some head) := by
  obtain ⟨ys, rfl⟩ := List.head?_eq_some_iff.mp h₀
  have hpm : p ∈ head :: (l ++ r) := List.mem_append_left r (List.mem_of_getLast? hp)
  have hne : ∀ x ∈ y₀ :: ys, x ≠ p := fun x hx hxp => hd x hx (hxp ▸ hpm)
  refine Chain.splice (l := head :: l) h.forward h.nodup hy hyn ?_ ?_ ?_ ?_
  · intro x hx
    obtain rfl : p = x := Option.some.inj (hp.symm.trans hx)
    exact Function.update_self ..
  · intro x hx
    obtain rfl : y₁ = x := Option.some.inj (h₁.symm.trans hx)
    rw [after_or hb, Function.update_of_ne (hne _ (List.mem_of_getLast? h₁)), Function.update_self]
  · intro x hx hxl
    have hxp : x ≠ p := fun hxp => hxl (hxp ▸ hp)
    have hxy : x ≠ y₁ := fun hxy => hd y₁ (List.mem_of_getLast? h₁) (hxy ▸ hx)
    rw [Function.update_of_ne hxp, Function.update_of_ne hxy]
  · intro x hx hxl
    have hxy : x ≠ y₁ := fun hxy => hxl (hxy ▸ h₁)
    rw [Function.update_of_ne (hne x hx), Function.update_of_ne hxy]

/-- The nodes `ys`, from `y₀` to `y₁`, linked in between `p` and `b` by four stores. -/
theorem splice {s t s' t' : Option α} (h : Ring next prev head (l ++ r))
    (hp : (head :: l).getLast? = some p) (hb : (head :: r.reverse).getLast? = some b)
    (hy : Chain next s ys t) (hy' : Chain prev s' ys.reverse t') (hyn : ys.Nodup)
    (hd : ∀ x ∈ ys, x ∉ head :: (l ++ r)) (h₀ : ys.head? = some y₀) (h₁ : ys.getLast? = some y₁) :
    Ring (Function.update (Function.update next y₁ (some b)) p (some y₀))
      (Function.update (Function.update prev y₀ (some p)) b (some y₁)) head (l ++ (ys ++ r)) := by
  refine ⟨?_, h.splice_forward hp hb hy hyn hd h₀ h₁, ?_⟩
  · have hperm : (head :: (l ++ (ys ++ r))).Perm (ys ++ head :: (l ++ r)) :=
      .trans (.cons head (List.perm_append_comm_assoc l ys r)) List.perm_middle.symm
    refine hperm.nodup_iff.mpr (List.nodup_append.mpr ⟨hyn, h.nodup, ?_⟩)
    rintro x hx _ hz rfl
    exact hd x hx hz
  · -- the other way round `b` comes before the cut and `p` after it
    have hr := h.reverse
    rw [List.reverse_append] at hr
    rw [List.reverse_append, List.reverse_append, List.append_assoc]
    refine hr.splice_forward hb (by rwa [List.reverse_reverse]) hy' (List.nodup_reverse.mpr hyn)
      (fun x hx hxm => ?_) (by rwa [List.head?_reverse]) (by rwa [List.getLast?_reverse])
    exact hd x (List.mem_reverse.mp hx) (by simpa [or_comm] using hxm)

/-- One direction of `cut`. -/
theorem cut_forward (h : Ring next prev head (l ++ (ys ++ r)))
    (hp : (head :: l).getLast? = some p) (hb : (head :: r.reverse).getLast? = some b) :
    Chain (Function.update next p (some b)) (some head) (head :: (l ++ r)) (some head) := by
  refine Chain.cut (l := head :: l) h.forward h.nodup ?_ ?_
  · intro x hx
    obtain rfl : p = x := Option.some.inj (hp.symm.trans hx)
    rw [after_or hb, Function.update_self]
  · intro x hx hxl
    have hxp : x ≠ p := fun hxp => hxl (hxp ▸ hp)
    rw [Function.update_of_ne hxp]

/-- The nodes between `p` and `b` taken out by two stores. -/
theorem cut (h : Ring next prev head (l ++ (ys ++ r)))
    (hp : (head :: l).getLast? = some p) (hb : (head :: r.reverse).getLast? = some b) :
    Ring (Function.update next p (some b)) (Function.update prev b (some p)) head (l ++ r) := by
  refine ⟨?_, h.cut_forward hp hb, ?_⟩
  · exact h.nodup.sublist (((List.sublist_append_right ys r).append_left l).cons_cons head)
  · have hr := h.reverse
    rw [List.reverse_append, List.reverse_append, List.append_assoc] at hr
    rw [List.reverse_append]
    exact hr.cut_forward hb (by rwa [List.reverse_reverse])

end Ring

end Ring

end Schemes
