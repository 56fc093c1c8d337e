import MugOS.LinkedList

/-!
# Several Lists in One Memory

Sequences of operations of `Stdlib/mugOS/List.c` on several lists that share no node. Each
list represents a sequence of nodes: following `next` from the head, and `prev` from the
tail, visits its nodes in order and in reverse order. An operation changes the sequence of
its own list as it should, and nothing of the others.

## Main results

* `lists_refine_sequences`: one operation, and every sequence of operations.
-/

namespace MugOS.LinkedList

open Links

variable {α : Type} [DecidableEq α]

/-- A list represents a sequence of distinct nodes: it is the one that is met by following
`next`, and in reverse by following `prev`, from the head until the head is met again. -/
def Represents (l : Links α) (list : α) (xs : List α) : Prop :=
  (list :: xs).Nodup ∧ l.forward list (xs.length + 1) list = some xs ∧
    l.swap.forward list (xs.length + 1) list = some xs.reverse

/-- Lists that represent sequences and share no node. -/
structure Lists (l : Links α) (lists : List α) (seqs : α → List α) : Prop where
  represents : ∀ list ∈ lists, Represents l list (seqs list)
  apart : ∀ a ∈ lists, ∀ b ∈ lists, a ≠ b → ∀ x ∈ a :: seqs a, x ∉ b :: seqs b

/-- A call of an operation on a list, with the head and the node that it is given. -/
inductive Op (α : Type)
  | init (list : α)
  | pushFront (list node : α)
  | pushBack (list node : α)
  | popFront (list : α)
  | popBack (list : α)
  | pop (list node : α)

/-- The list of a call. -/
def Op.list : Op α → α
  | .init list | .pushFront list _ | .pushBack list _ | .popFront list | .popBack list
  | .pop list _ => list

/-- A call of an operation, with the links that it leaves. -/
def exec (l : Links α) : Op α → Except Fault (Links α)
  | .init list => .ok (LinkedList.init l list)
  | .pushFront list node => LinkedList.pushFront l list node
  | .pushBack list node => LinkedList.pushBack l list node
  | .popFront list => LinkedList.popFront l list
  | .popBack list => LinkedList.popBack l list
  | .pop list node => LinkedList.pop l list node

/-- A sequence of calls. -/
def execs : Links α → List (Op α) → Except Fault (Links α)
  | l, [] => .ok l
  | l, op :: ops => do execs (← exec l op) ops

/-- The abstract behaviour: what a call does to the sequence of its list. -/
def Op.apply (xs : List α) : Op α → List α
  | .init _ => []
  | .pushFront _ node => node :: xs
  | .pushBack _ node => xs ++ [node]
  | .popFront _ => xs.tail
  | .popBack _ => xs.dropLast
  | .pop _ node => xs.erase node

/-- What a sequence of calls does to the sequences. -/
def applies (seqs : α → List α) : List (Op α) → α → List α
  | [] => seqs
  | op :: ops => applies (Function.update seqs op.list (op.apply (seqs op.list))) ops

/-- The node that a call takes out of its list, if it takes one out. -/
def Op.removed (xs : List α) : Op α → Option α
  | .popFront _ => xs.head?
  | .popBack _ => xs.getLast?
  | .pop _ node => some node
  | _ => none

/-- The node that a call puts into its list. -/
def Op.added : Op α → Option α
  | .pushFront _ node | .pushBack _ node => some node
  | _ => none

/-- The call is about one of the lists; a node that is pushed is in none of them, and a node
that is popped is in the list. -/
def Op.Valid (lists : List α) (seqs : α → List α) (op : Op α) : Prop :=
  op.list ∈ lists ∧
    match op with
    | .pushFront _ node | .pushBack _ node => ∀ list ∈ lists, node ∉ list :: seqs list
    | .pop list node => node ∈ seqs list
    | _ => True

/-- Each call of a sequence is valid when it is made. -/
def ValidAll (lists : List α) : (α → List α) → List (Op α) → Prop
  | _, [] => True
  | seqs, op :: ops =>
      op.Valid lists seqs ∧
        ValidAll lists (Function.update seqs op.list (op.apply (seqs op.list))) ops

/-- The effect of a call on the links: the list represents its new sequence, the links of a
node that was taken out are null, and nothing outside of the list and the node that was put
in is modified. -/
structure Effect (l l' : Links α) (xs : List α) (op : Op α) : Prop where
  represents : Represents l' op.list (op.apply xs)
  removed : ∀ x, op.removed xs = some x → l'.next x = none ∧ l'.prev x = none
  frame : ∀ y, y ∉ op.list :: xs → op.added ≠ some y → l'.next y = l.next y ∧ l'.prev y = l.prev y

/-- **Taking a node out** of its list has the effect of an operation that erases it from the
sequence. -/
theorem effect_of_pop {l l' : Links α} {list x : α} {xs ys : List α}
    (hx : xs.erase x = ys) (hr : l'.Ring list (xs.erase x))
    (hother : ∀ y, y ∉ list :: xs → l'.next y = l.next y ∧ l'.prev y = l.prev y)
    (hnull : l'.next x = none ∧ l'.prev x = none) (op : Op α) (hlist : op.list = list)
    (happly : op.apply xs = ys) (hremoved : op.removed xs = some x) : Effect l l' xs op where
  represents := by
    rw [happly, ← hx, hlist]
    exact ring_iff_forward.mp hr
  removed := by
    intro y hy
    rw [hremoved] at hy
    exact Option.some.inj hy ▸ hnull
  frame := fun y hy _ => hother y (hlist ▸ hy)

/-- **One call** on a list that represents a sequence. -/
theorem exec_effect {l : Links α} {lists : List α} {seqs : α → List α}
    (h : Lists l lists seqs) {op : Op α} (hop : op.Valid lists seqs) :
    ∃ l', exec l op = .ok l' ∧ Effect l l' (seqs op.list) op := by
  obtain ⟨hlist, hvalid⟩ := hop
  have hring : l.Ring op.list (seqs op.list) := ring_iff_forward.mpr (h.represents _ hlist)
  have hnodup := (List.nodup_cons.mp hring.nodup).2
  cases op with
  | init list =>
      obtain ⟨hr, hother⟩ := init_spec l list
      refine ⟨_, rfl, ring_iff_forward.mp hr, by rintro x ⟨⟩, ?_⟩
      intro y hy _
      exact hother y fun heq => hy (heq ▸ List.mem_cons_self)
  | pushFront list node =>
      obtain ⟨l', hok, hr, hother⟩ := pushFront_spec hring (hvalid list hlist)
      refine ⟨l', hok, ring_iff_forward.mp hr, by rintro x ⟨⟩, ?_⟩
      intro y hy hadd
      refine hother y fun hmem => ?_
      rcases List.mem_cons.mp hmem with rfl | hmem
      · exact hadd rfl
      · exact hy hmem
  | pushBack list node =>
      obtain ⟨l', hok, hr, hother⟩ := pushBack_spec hring (hvalid list hlist)
      refine ⟨l', hok, ring_iff_forward.mp hr, by rintro x ⟨⟩, ?_⟩
      intro y hy hadd
      refine hother y fun hmem => ?_
      rcases List.mem_cons.mp hmem with rfl | hmem
      · exact hadd rfl
      · exact hy hmem
  | popFront list =>
      simp only [Op.list] at hring hnodup ⊢
      cases hxs : seqs list with
      | nil =>
          rw [hxs] at hring
          refine ⟨l, ?_, ring_iff_forward.mp hring, by rintro x ⟨⟩, fun y _ _ => ⟨rfl, rfl⟩⟩
          rw [exec, LinkedList.popFront, if_pos]
          simpa [isEmpty] using hring.next_eq_head.mpr rfl
      | cons x xs =>
          rw [hxs] at hring hnodup
          obtain ⟨l', hok, hr, hother, hnull⟩ := pop_spec hring (List.mem_cons_self (a := x))
          refine ⟨l', by rw [exec, popFront_eq hring, hok], ?_⟩
          exact effect_of_pop (List.erase_cons_head x xs) hr hother hnull _ rfl rfl rfl
  | popBack list =>
      simp only [Op.list] at hring hnodup ⊢
      rcases List.eq_nil_or_concat (seqs list) with hxs | ⟨ys, x, hxs⟩
      · rw [hxs] at hring ⊢
        refine ⟨l, ?_, ring_iff_forward.mp hring, by rintro x ⟨⟩, fun y _ _ => ⟨rfl, rfl⟩⟩
        rw [exec, LinkedList.popBack, if_pos]
        simpa [isEmpty] using hring.next_eq_head.mpr rfl
      · rw [List.concat_eq_append] at hxs
        rw [hxs] at hring hnodup ⊢
        obtain ⟨l', hok, hr, hother, hnull⟩ := pop_spec hring
          (List.mem_append_right ys (List.mem_singleton_self x))
        refine ⟨l', by rw [exec, popBack_eq hring, hok], ?_⟩
        have herase : (ys ++ [x]).erase x = ys := by
          rw [erase_of_nodup hnodup, List.append_nil]
        exact effect_of_pop herase hr hother hnull _ rfl (by simp [Op.apply])
          (by simp [Op.removed])
  | pop list node =>
      obtain ⟨l', hok, hr, hother, hnull⟩ := pop_spec hring hvalid
      exact ⟨l', hok, effect_of_pop rfl hr hother hnull _ rfl rfl rfl⟩

/-- The nodes of a list after a call were in it before, or were put in. -/
theorem Op.mem_apply {xs : List α} {op : Op α} {x : α} (hx : x ∈ op.apply xs) :
    x ∈ xs ∨ op.added = some x := by
  cases op with
  | init list => exact absurd hx (by simp [Op.apply])
  | pushFront list node =>
      rcases List.mem_cons.mp hx with rfl | hx
      · exact .inr rfl
      · exact .inl hx
  | pushBack list node =>
      rcases List.mem_append.mp hx with hx | hx
      · exact .inl hx
      · exact .inr (by rw [List.mem_singleton.mp hx]; rfl)
  | popFront list => exact .inl (List.mem_of_mem_tail hx)
  | popBack list => exact .inl (List.mem_of_mem_dropLast hx)
  | pop list node => exact .inl (List.mem_of_mem_erase hx)

omit [DecidableEq α] in
/-- A node that is put into a list was in none of the lists. -/
theorem Op.Valid.not_mem {lists : List α} {seqs : α → List α} {op : Op α}
    (hop : op.Valid lists seqs) {x : α} (hx : op.added = some x) {list : α}
    (hlist : list ∈ lists) : x ∉ list :: seqs list := by
  cases op with
  | pushFront l node => exact Option.some.inj hx ▸ hop.2 list hlist
  | pushBack l node => exact Option.some.inj hx ▸ hop.2 list hlist
  | init _ | popFront _ | popBack _ | pop _ _ => exact absurd hx (by simp [Op.added])

/-- **The other lists do not notice** an operation on one list: they keep their sequences. -/
theorem Lists.step {l l' : Links α} {lists : List α} {seqs : α → List α} (h : Lists l lists seqs)
    {op : Op α} (hop : op.Valid lists seqs) (heff : Effect l l' (seqs op.list) op) :
    Lists l' lists (Function.update seqs op.list (op.apply (seqs op.list))) := by
  have hlist := hop.1
  -- Nodes of the operated list are not in the others, also after the call.
  have hapart : ∀ b ∈ lists, b ≠ op.list → ∀ x ∈ op.list :: op.apply (seqs op.list),
      x ∉ b :: seqs b := by
    intro b hb hne x hx
    rcases List.mem_cons.mp hx with rfl | hx
    · exact h.apart _ hlist b hb hne.symm _ List.mem_cons_self
    · rcases Op.mem_apply hx with hx | hx
      · exact h.apart _ hlist b hb hne.symm x (List.mem_cons_of_mem _ hx)
      · exact hop.not_mem hx hb
  refine ⟨?_, ?_⟩
  · intro b hb
    by_cases hbl : b = op.list
    · rw [hbl, Function.update_self]
      exact heff.represents
    · rw [Function.update_of_ne hbl]
      refine ring_iff_forward.mp ((ring_iff_forward.mpr (h.represents b hb)).congr ?_)
      intro y hy
      refine heff.frame y ?_ ?_
      · exact fun hmem => h.apart b hb op.list hlist hbl y hy hmem
      · exact fun hadd => hop.not_mem hadd hb hy
  · intro a ha b hb hab x hx hmem
    by_cases hal : a = op.list
    · have hbl : b ≠ op.list := fun heq => hab (hal.trans heq.symm)
      rw [hal, Function.update_self] at hx
      rw [Function.update_of_ne hbl] at hmem
      exact hapart b hb hbl x hx hmem
    · rw [Function.update_of_ne hal] at hx
      by_cases hbl : b = op.list
      · rw [hbl, Function.update_self] at hmem
        exact hapart a ha hal x hmem hx
      · rw [Function.update_of_ne hbl] at hmem
        exact h.apart a ha b hb hab x hx hmem

/-- **A sequence of calls** on several disjoint lists succeeds, and does to each what its
operations do to its sequence. -/
theorem Lists.execs {l : Links α} {lists : List α} {seqs : α → List α} (h : Lists l lists seqs)
    (ops : List (Op α)) (hops : ValidAll lists seqs ops) :
    ∃ l', LinkedList.execs l ops = .ok l' ∧ Lists l' lists (applies seqs ops) := by
  induction ops generalizing l seqs with
  | nil => exact ⟨l, rfl, h⟩
  | cons op ops ih =>
      obtain ⟨l₁, hok, heff⟩ := exec_effect h hops.1
      obtain ⟨l', hoks, h'⟩ := ih (h.step hops.1 heff) hops.2
      refine ⟨l', ?_, h'⟩
      rw [LinkedList.execs, hok]
      exact hoks

/-- **Lists are sequences.** In a memory with lists that represent sequences and share no
node: every operation on one of them returns, makes its list represent the sequence that it
should, clears the links of the node that it takes out and modifies nothing outside of its
list; and after every sequence of operations all the lists represent the sequences that
they should and still share no node. -/
theorem lists_refine_sequences {l : Links α} {lists : List α} {seqs : α → List α}
    (h : Lists l lists seqs) :
    (∀ op : Op α, op.Valid lists seqs →
      ∃ l', exec l op = .ok l' ∧ Effect l l' (seqs op.list) op) ∧
    ∀ ops : List (Op α), ValidAll lists seqs ops →
      ∃ l', execs l ops = .ok l' ∧ Lists l' lists (applies seqs ops) :=
  ⟨fun _ hop => exec_effect h hop, fun ops hops => h.execs ops hops⟩

/-- The refinement at two lists with heads `0` and `1`, of which the first gets two nodes and
loses the first of them. -/
theorem lists_refine_sequences_two : ∃ l : Links ℕ,
    Lists l [0, 1] (fun _ => []) ∧
      ∃ l', execs l [.pushBack 0 5, .pushFront 0 6, .popFront 0] = .ok l' ∧
        Lists l' [0, 1] (Function.update (fun _ => []) 0 [5]) := by
  have hstart : Lists (⟨fun x => some x, fun x => some x⟩ : Links ℕ) [0, 1] (fun _ => []) := by
    refine ⟨?_, ?_⟩
    · intro list _
      exact ring_iff_forward.mp (ring_nil.mpr ⟨rfl, rfl⟩)
    · intro a _ b _ hab x hx hmem
      simp only [List.mem_singleton] at hx hmem
      exact hab (hx.symm.trans hmem)
  obtain ⟨l', hok, h'⟩ := (lists_refine_sequences hstart).2
    [.pushBack 0 5, .pushFront 0 6, .popFront 0]
    (by simp [ValidAll, Op.Valid, Op.list, Op.apply])
  refine ⟨_, hstart, l', hok, ?_⟩
  simpa [applies, Op.list, Op.apply] using h'

end MugOS.LinkedList
