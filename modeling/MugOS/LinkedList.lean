import MugOS.Memory
import MugOS.Lib.Ring

/-!
# The Intrusive Lists

`Stdlib/mugOS/List.c` and `List.h`: circular doubly linked lists whose nodes are embedded in
other structures. A list head has the layout of a node, `head` being at the place of `next`
and `tail` at that of `prev`, and the source casts one to the other; so a head is a node here
as well. Reading or writing through a null link is the outcome `Fault.wild`.

## Main results

* `pushFront_spec`, `pop_spec`: the operations on a list that represents a sequence.
* `foreach_eq`: the loop over such a list.
-/

namespace MugOS.LinkedList

open Links

variable {α β : Type} [DecidableEq α]

/-- `List_isEmpty(list)`: whether the head is linked to itself. -/
def isEmpty (l : Links α) (list : α) : Bool := l.next list = some list

/-- `x->next = y`: a store to the next link of a node. -/
def setNext (l : Links α) (x : α) (y : Option α) : Links α :=
  { l with next := Function.update l.next x y }

/-- `x->prev = y`: a store to the previous link of a node. -/
def setPrev (l : Links α) (x : α) (y : Option α) : Links α :=
  { l with prev := Function.update l.prev x y }

/-- `List_pushFront(list, node)`: links the node in behind the head. -/
def pushFront (l : Links α) (list node : α) : Except Fault (Links α) :=
  if isEmpty l list then
    let l := setNext l list (some node)
    let l := setPrev l list (some node)
    let l := setNext l node (some list)
    .ok (setPrev l node (some list))
  else
    match l.next list with
    | none => .error .wild
    | some head =>
        let l := setPrev l head (some node)
        let l := setNext l node (some head)
        let l := setPrev l node (some list)
        .ok (setNext l list (some node))

/-- `List_init(list)`, and `List_empty(list)`, which has the same body. -/
def init (l : Links α) (list : α) : Links α := setPrev (setNext l list (some list)) list (some list)

/-- `List_pushBack(list, node)`: links the node in before the head. -/
def pushBack (l : Links α) (list node : α) : Except Fault (Links α) :=
  if isEmpty l list then
    let l := setNext l list (some node)
    let l := setPrev l list (some node)
    let l := setNext l node (some list)
    .ok (setPrev l node (some list))
  else
    match l.prev list with
    | none => .error .wild
    | some tail =>
        let l := setNext l tail (some node)
        let l := setPrev l node (some tail)
        let l := setNext l node (some list)
        .ok (setPrev l list (some node))

/-- `popUniqueElement(list)`, `head` being the head of the list. -/
def popUniqueElement (l : Links α) (list head : α) : Links α :=
  let l := setNext l head none
  let l := setPrev l head none
  let l := setNext l list (some list)
  setPrev l list (some list)

/-- `popFrontInternal(list)`, `front` being the head of the list. -/
def popFrontInternal (l : Links α) (list front : α) : Except Fault (Links α) :=
  match l.next front with
  | none => .error .wild
  | some head =>
      let l := setNext l list (some head)
      let l := setPrev l head (some list)
      let l := setNext l front none
      .ok (setPrev l front none)

/-- `popBackInternal(list)`, `back` being the tail of the list. -/
def popBackInternal (l : Links α) (list back : α) : Except Fault (Links α) :=
  match l.prev back with
  | none => .error .wild
  | some tail =>
      let l := setPrev l list (some tail)
      let l := setNext l tail (some list)
      let l := setNext l back none
      .ok (setPrev l back none)

/-- `List_popFront(list)`: unlinks the first node, if there is one. -/
def popFront (l : Links α) (list : α) : Except Fault (Links α) :=
  if isEmpty l list then .ok l
  else
    match l.next list with
    | none => .error .wild
    | some head =>
        if l.prev list = some head then .ok (popUniqueElement l list head)
        else popFrontInternal l list head

/-- `List_popBack(list)`: unlinks the last node, if there is one. -/
def popBack (l : Links α) (list : α) : Except Fault (Links α) :=
  if isEmpty l list then .ok l
  else
    match l.prev list with
    | none => .error .wild
    | some tail =>
        if l.next list = some tail then .ok (popUniqueElement l list tail)
        else popBackInternal l list tail

/-- `List_pop(list, node)`: unlinks the node, if the list is not empty. -/
def pop (l : Links α) (list node : α) : Except Fault (Links α) :=
  if isEmpty l list then .ok l
  else if l.next list = some node ∧ l.prev list = some node then
    .ok (popUniqueElement l list node)
  else if l.next list = some node then popFrontInternal l list node
  else if l.prev list = some node then popBackInternal l list node
  else
    match l.next node with
    | none => .error .wild
    | some next =>
        let l := setPrev l next (l.prev node)
        match l.prev node with
        | none => .error .wild
        | some prev =>
            let l := setNext l prev (l.next node)
            let l := setNext l node none
            .ok (setPrev l node none)

/-- `List_foreach(list, node)` from a node on. The body says whether the loop is left. A
list that is traversed to its end has distinct nodes; with fewer steps than nodes the loop
counts as one that does not end. -/
def foreachFrom (l : Links α) (list : α) (body : β → α → Except Fault (β × Bool)) :
    ℕ → β → Option α → Except Fault β
  | _, _, none => .error .wild
  | fuel, b, some node =>
      if node = list then .ok b
      else do
        let (b, leave) ← body b node
        if leave then .ok b
        else
          match fuel with
          | 0 => .error .diverges
          | fuel + 1 => foreachFrom l list body fuel b (l.next node)

/-- `List_foreach(list, node)`: the loop from the first node on, whose body may leave it. -/
def foreach (l : Links α) (list : α) (fuel : ℕ) (b : β)
    (body : β → α → Except Fault (β × Bool)) : Except Fault β :=
  foreachFrom l list body fuel b (l.next list)

/-! ### Specifications -/

/-- The loop over the nodes of a sequence, up to the one at which the body leaves it. -/
def foldUntil (body : β → α → Except Fault (β × Bool)) : β → List α → Except Fault β
  | b, [] => .ok b
  | b, x :: xs => do
      let (b, leave) ← body b x
      if leave then .ok b else foldUntil body b xs

section Foreach

variable {l : Links α} {list x : α} {body : β → α → Except Fault (β × Bool)} {xs : List α}

/-- The loop along a segment that ends at the head, with as many steps as there are nodes. -/
theorem foreachFrom_eq (hseg : l.Segment x xs list) (hx : list ∉ x :: xs) {fuel : ℕ}
    (hfuel : xs.length < fuel) (b : β) :
    foreachFrom l list body fuel b (some x) = foldUntil body b (x :: xs) := by
  induction xs generalizing x fuel b with
  | nil =>
      obtain ⟨fuel, rfl⟩ : ∃ k, fuel = k + 1 := ⟨fuel - 1, by simp at hfuel; omega⟩
      have hne : x ≠ list := by
        rintro rfl
        exact hx (by simp)
      rw [foreachFrom, if_neg hne, foldUntil]
      congr 1
      funext r
      obtain ⟨b, leave⟩ := r
      cases leave with
      | true => rfl
      | false => simp [hseg.1, foreachFrom, foldUntil]
  | cons y xs ih =>
      obtain ⟨fuel, rfl⟩ : ∃ k, fuel = k + 1 := ⟨fuel - 1, by simp at hfuel; omega⟩
      have hne : x ≠ list := by
        rintro rfl
        exact hx (by simp)
      rw [foreachFrom, if_neg hne, foldUntil]
      congr 1
      funext r
      obtain ⟨b, leave⟩ := r
      cases leave with
      | true => rfl
      | false =>
          simp only [Bool.false_eq_true, if_false, hseg.1.1]
          exact ih hseg.2 (fun hmem => hx (List.mem_cons_of_mem x hmem))
            (by simp at hfuel; omega) b

/-- The loop along a segment that ends at the head, if it ends. -/
theorem foldUntil_of_foreachFrom (hseg : l.Segment x xs list) (hx : list ∉ x :: xs) (fuel : ℕ)
    {b r : β} (hr : foreachFrom l list body fuel b (some x) = .ok r) :
    foldUntil body b (x :: xs) = .ok r := by
  induction xs generalizing x fuel b with
  | nil =>
      have hne : x ≠ list := by
        rintro rfl
        exact hx (by simp)
      rw [foreachFrom, if_neg hne, bind_eq_ok] at hr
      obtain ⟨⟨b', leave⟩, hbody, hr⟩ := hr
      rw [foldUntil, bind_eq_ok]
      refine ⟨_, hbody, ?_⟩
      cases leave with
      | true => exact hr
      | false =>
          cases fuel with
          | zero => exact absurd hr (by simp)
          | succ fuel => simpa [hseg.1, foreachFrom, foldUntil] using hr
  | cons y xs ih =>
      have hne : x ≠ list := by
        rintro rfl
        exact hx (by simp)
      rw [foreachFrom, if_neg hne, bind_eq_ok] at hr
      obtain ⟨⟨b', leave⟩, hbody, hr⟩ := hr
      rw [foldUntil, bind_eq_ok]
      refine ⟨_, hbody, ?_⟩
      cases leave with
      | true => exact hr
      | false =>
          cases fuel with
          | zero => exact absurd hr (by simp)
          | succ fuel =>
              simp only [Bool.false_eq_true, if_false, hseg.1.1] at hr
              exact ih hseg.2 (fun hmem => hx (List.mem_cons_of_mem x hmem)) fuel hr

end Foreach

/-- **The loop over a list** that represents a sequence, if it ends. -/
theorem foldUntil_of_foreach {l : Links α} {list : α} {xs : List α} (hring : l.Ring list xs)
    {fuel : ℕ} {b r : β} {body : β → α → Except Fault (β × Bool)}
    (hr : foreach l list fuel b body = .ok r) : foldUntil body b xs = .ok r := by
  rw [foreach, hring.next_head] at hr
  cases xs with
  | nil =>
      rw [List.headD_nil, foreachFrom, if_pos rfl] at hr
      exact hr
  | cons x xs =>
      exact foldUntil_of_foreachFrom hring.segment.2 (List.nodup_cons.mp hring.nodup).1 fuel hr

/-- **The loop over a list ends** and folds its body over the nodes, if it has a step for each
of them. -/
theorem foreach_eq {l : Links α} {list : α} {xs : List α} (hring : l.Ring list xs) {fuel : ℕ}
    (hfuel : xs.length ≤ fuel) (b : β) (body : β → α → Except Fault (β × Bool)) :
    foreach l list fuel b body = foldUntil body b xs := by
  rw [foreach, hring.next_head]
  cases xs with
  | nil => rw [List.headD_nil, foreachFrom, if_pos rfl, foldUntil]
  | cons x xs =>
      exact foreachFrom_eq hring.segment.2 (List.nodup_cons.mp hring.nodup).1
        (by simpa using hfuel) b

/-- **Pushing a node that is not in the list.** Only links of the list and of the node
change. -/
theorem pushFront_spec {l : Links α} {list node : α} {xs : List α} (hring : l.Ring list xs)
    (hnode : node ∉ list :: xs) :
    ∃ l', pushFront l list node = .ok l' ∧ l'.Ring list (node :: xs) ∧
      ∀ y, y ∉ node :: list :: xs → l'.next y = l.next y ∧ l'.prev y = l.prev y := by
  have hempty := hring.next_eq_head
  have hnext := hring.next_head
  have hnodup := hring.nodup
  cases xs with
  | nil =>
      refine ⟨_, by rw [pushFront, isEmpty, if_pos (by simpa using hnext)], ?_, ?_⟩
      · apply hring.link_front hnode <;> simp [setNext, setPrev] <;> grind
      · intro y hy
        simp [setNext, setPrev]
        grind
  | cons x xs =>
      have hne : ¬ isEmpty l list = true := by simp [isEmpty, hempty]
      refine ⟨_, by rw [pushFront, if_neg hne, hnext], ?_, ?_⟩
      · apply hring.link_front hnode <;> simp [setNext, setPrev] <;> grind
      · intro y hy
        simp [setNext, setPrev]
        grind

/-- Erasing a node of a sequence without repetition leaves the nodes before it and behind
it. -/
theorem erase_of_nodup {xs ys : List α} {x : α} (h : (xs ++ x :: ys).Nodup) :
    (xs ++ x :: ys).erase x = xs ++ ys := by
  have hx : x ∉ xs := fun hmem => (List.nodup_append.mp h).2.2 x hmem x (by simp) rfl
  rw [List.erase_append_right _ hx, List.erase_cons_head]

/-- The links once a node is cut out from between two others. -/
def cut (l : Links α) (p node q : α) : Links α where
  next := Function.update (Function.update l.next p (some q)) node none
  prev := Function.update (Function.update l.prev q (some p)) node none

/-- The four branches of `List_pop` do the same to the neighbours of the node. -/
theorem pop_eq {l : Links α} {list node : α} {xs ys : List α}
    (hring : l.Ring list (xs ++ node :: ys)) :
    pop l list node = .ok (cut l (xs.getLastD list) node (ys.headD list)) := by
  have hnodup := hring.nodup
  have hne : ¬ isEmpty l list = true := by
    rw [isEmpty, decide_eq_true_eq, hring.next_eq_head]
    simp
  have hhead := hring.next_head
  have htail := hring.prev_head
  obtain ⟨hleft, hright⟩ := segment_append.mp hring.segment
  have hln : list ≠ node := by grind
  have hlast : ys ≠ [] → l.prev list ≠ some node := by
    intro hys
    obtain ⟨ws, z, rfl⟩ := (List.eq_nil_or_concat ys).resolve_left hys
    rw [List.concat_eq_append] at *
    rw [htail, ← List.cons_append, ← List.append_assoc, List.getLastD_concat]
    grind
  rw [pop, if_neg hne]
  rcases List.eq_nil_or_concat xs with rfl | ⟨us, p, rfl⟩
  · rw [List.nil_append, List.headD_cons] at hhead
    cases ys with
    | nil =>
        rw [if_pos ⟨hhead, by simpa using htail⟩]
        simp [popUniqueElement, setNext, setPrev, cut, Function.update_comm hln]
    | cons q vs =>
        rw [if_neg (fun h => hlast (by simp) h.2), if_pos hhead, popFrontInternal, hright.1.1]
        simp [setNext, setPrev, cut]
  · rw [List.concat_eq_append] at *
    have hfirst : l.next list ≠ some node := by
      rw [hhead]
      cases us <;> grind
    rw [if_neg (fun h => hfirst h.1), if_neg hfirst]
    have hprev : l.prev node = some p := (segment_concat.mp hleft).2.2
    cases ys with
    | nil =>
        rw [if_pos (by simpa using htail), popBackInternal, hprev]
        simp [setNext, setPrev, cut]
    | cons q vs =>
        have hpn : node ≠ q := by grind
        rw [if_neg (hlast (by simp)), hright.1.1]
        simp [setNext, setPrev, cut, hprev, Function.update_of_ne hpn, hright.1.1]

/-- **Cutting a node out.** Its links become null, and only links of the list change. -/
theorem cut_spec {l : Links α} {list node : α} {xs ys : List α}
    (hring : l.Ring list (xs ++ node :: ys)) :
    (cut l (xs.getLastD list) node (ys.headD list)).Ring list (xs ++ ys) ∧
      (cut l (xs.getLastD list) node (ys.headD list)).next node = none ∧
      (cut l (xs.getLastD list) node (ys.headD list)).prev node = none ∧
      ∀ y, y ∉ list :: (xs ++ node :: ys) →
        (cut l (xs.getLastD list) node (ys.headD list)).next y = l.next y ∧
        (cut l (xs.getLastD list) node (ys.headD list)).prev y = l.prev y := by
  have hnodup := hring.nodup
  have hp : xs.getLastD list ∈ list :: xs := by
    rcases List.eq_nil_or_concat xs with rfl | ⟨us, p, rfl⟩
    · simp
    · simp [List.concat_eq_append]
  have hq : ys.headD list ∈ list :: ys := by
    cases ys <;> simp
  have hpn : xs.getLastD list ≠ node := by grind
  have hqn : ys.headD list ≠ node := by grind
  refine ⟨?_, by simp [cut], by simp [cut], ?_⟩
  · apply hring.unlink
    · simp only [Links.Joined, cut, Function.update_of_ne hpn, Function.update_of_ne hqn,
        Function.update_self, and_self]
    · intro y hy hyp
      have hyn : y ≠ node := by grind
      simp only [cut, Function.update_of_ne hyn, Function.update_of_ne hyp]
    · intro y hy hyq
      have hyn : y ≠ node := by grind
      simp only [cut, Function.update_of_ne hyn, Function.update_of_ne hyq]
  · intro y hy
    have hyn : y ≠ node := by grind
    have hyp : y ≠ xs.getLastD list := by grind
    have hyq : y ≠ ys.headD list := by grind
    simp only [cut, Function.update_of_ne hyn, Function.update_of_ne hyp,
      Function.update_of_ne hyq, and_self]

/-- **Popping a node of the list.** Only links of the list change, and those of the node
become null. -/
theorem pop_spec {l : Links α} {list node : α} {zs : List α} (hring : l.Ring list zs)
    (hnode : node ∈ zs) :
    ∃ l', pop l list node = .ok l' ∧ l'.Ring list (zs.erase node) ∧
      (∀ y, y ∉ list :: zs → l'.next y = l.next y ∧ l'.prev y = l.prev y) ∧
      l'.next node = none ∧ l'.prev node = none := by
  obtain ⟨xs, ys, rfl⟩ := List.append_of_mem hnode
  obtain ⟨hcut, hnext, hprev, hother⟩ := cut_spec hring
  rw [erase_of_nodup (List.nodup_cons.mp hring.nodup).2]
  exact ⟨_, pop_eq hring, hcut, hother, hnext, hprev⟩

/-- **Pushing a node at the back** that is not in the list. -/
theorem pushBack_spec {l : Links α} {list node : α} {xs : List α} (hring : l.Ring list xs)
    (hnode : node ∉ list :: xs) :
    ∃ l', pushBack l list node = .ok l' ∧ l'.Ring list (xs ++ [node]) ∧
      ∀ y, y ∉ node :: list :: xs → l'.next y = l.next y ∧ l'.prev y = l.prev y := by
  have hempty := hring.next_eq_head
  have hprev := hring.prev_head
  have hnodup := hring.nodup
  rcases List.eq_nil_or_concat xs with rfl | ⟨ys, x, rfl⟩
  · refine ⟨_, by rw [pushBack, isEmpty, if_pos (by simpa using hring.next_head)], ?_, ?_⟩
    · apply hring.link_back hnode <;> simp [setNext, setPrev] <;> grind
    · intro y hy
      simp [setNext, setPrev]
      grind
  · rw [List.concat_eq_append] at *
    have hne : ¬ isEmpty l list = true := by simp [isEmpty, hempty]
    rw [List.getLastD_concat] at hprev
    refine ⟨_, by rw [pushBack, if_neg hne, hprev], ?_, ?_⟩
    · apply hring.link_back hnode <;> simp [setNext, setPrev] <;> grind
    · intro y hy
      simp [setNext, setPrev]
      grind

/-- Popping at the front of a list is popping its first node. -/
theorem popFront_eq {l : Links α} {list x : α} {xs : List α} (hring : l.Ring list (x :: xs)) :
    popFront l list = pop l list x := by
  have hne : ¬ isEmpty l list = true := by
    rw [isEmpty, decide_eq_true_eq, hring.next_eq_head]
    simp
  have hhead : l.next list = some x := hring.next_head
  rw [popFront, pop, if_neg hne, if_neg hne, hhead]
  simp only [true_and, if_true]

/-- Popping at the back of a list is popping its last node. -/
theorem popBack_eq {l : Links α} {list x : α} {xs : List α} (hring : l.Ring list (xs ++ [x])) :
    popBack l list = pop l list x := by
  have hne : ¬ isEmpty l list = true := by
    rw [isEmpty, decide_eq_true_eq, hring.next_eq_head]
    simp
  have htail : l.prev list = some x := by
    rw [hring.prev_head, List.getLastD_concat]
  rw [popBack, pop, if_neg hne, if_neg hne, htail]
  simp only [and_true, if_true]
  by_cases hhead : l.next list = some x
  · rw [if_pos hhead, if_pos hhead]
  · rw [if_neg hhead, if_neg hhead, if_neg hhead]

/-- An initialised list has no nodes, and only its own links change. -/
theorem init_spec (l : Links α) (list : α) : (init l list).Ring list [] ∧
    ∀ y, y ≠ list → (init l list).next y = l.next y ∧ (init l list).prev y = l.prev y := by
  refine ⟨ring_nil.mpr ⟨by simp [init, setNext, setPrev], by simp [init, setPrev]⟩, ?_⟩
  intro y hy
  simp [init, setNext, setPrev, Function.update_of_ne hy]

/-! ### Families of nodes

What the operations do to links of unknown shape, as long as some family of nodes has no
link that leads out of it. -/

/-- The links of `l'` differ from those of `l` on nodes of the family only, and no link of
these leads out of the family. -/
structure Within (P : α → Prop) (l l' : Links α) : Prop where
  next_mem : ∀ x y, P x → l'.next x = some y → P y
  prev_mem : ∀ x y, P x → l'.prev x = some y → P y
  other : ∀ x, ¬ P x → l'.next x = l.next x ∧ l'.prev x = l.prev x

section Family

variable {P : α → Prop} {l l' : Links α} {list node x : α}

/-- A store to the next link of a node of the family, of a node of it or null, stays within the
family. -/
theorem Within.setNext (h : Within P l l') (hx : P x) {y : Option α} (hy : ∀ z, y = some z → P z) :
    Within P l (setNext l' x y) where
  next_mem := by
    intro u v hu hv
    by_cases hux : u = x
    · simp only [LinkedList.setNext, hux, Function.update_self] at hv
      exact hy v hv
    · simp only [LinkedList.setNext, Function.update_of_ne hux] at hv
      exact h.next_mem u v hu hv
  prev_mem := h.prev_mem
  other := by
    intro u hu
    have hux : u ≠ x := fun heq => hu (heq ▸ hx)
    simp only [LinkedList.setNext, Function.update_of_ne hux]
    exact h.other u hu

/-- A store to the previous link of a node of the family, of a node of it or null, stays within
the family. -/
theorem Within.setPrev (h : Within P l l') (hx : P x) {y : Option α} (hy : ∀ z, y = some z → P z) :
    Within P l (setPrev l' x y) where
  next_mem := h.next_mem
  prev_mem := by
    intro u v hu hv
    by_cases hux : u = x
    · simp only [LinkedList.setPrev, hux, Function.update_self] at hv
      exact hy v hv
    · simp only [LinkedList.setPrev, Function.update_of_ne hux] at hv
      exact h.prev_mem u v hu hv
  other := by
    intro u hu
    have hux : u ≠ x := fun heq => hu (heq ▸ hx)
    simp only [LinkedList.setPrev, Function.update_of_ne hux]
    exact h.other u hu

omit [DecidableEq α] in
/-- A link to a node of the family is a link within the family. -/
theorem family_some (hx : P x) : ∀ z, some x = some z → P z := by
  rintro z ⟨⟩
  exact hx

omit [DecidableEq α] in
/-- A null link is a link within any family. -/
theorem family_none : ∀ z, (none : Option α) = some z → P z := by
  rintro z ⟨⟩

/-- **Pushing** stays within a family that the list and the node belong to. -/
theorem pushFront_within (h : Within P l l) (hlist : P list) (hnode : P node)
    (hok : pushFront l list node = .ok l') : Within P l l' := by
  unfold pushFront at hok
  split at hok
  · rw [← Except.ok.inj hok]
    exact (((h.setNext hlist (family_some hnode)).setPrev hlist (family_some hnode)).setNext hnode
      (family_some hlist)).setPrev hnode (family_some hlist)
  · split at hok
    · exact absurd hok (by simp)
    · rename_i head hhead
      have hP : P head := h.next_mem list head hlist hhead
      rw [← Except.ok.inj hok]
      exact (((h.setPrev hP (family_some hnode)).setNext hnode (family_some hP)).setPrev hnode
        (family_some hlist)).setNext hlist (family_some hnode)

/-- **Popping** stays within a family that the list and the node belong to. -/
theorem pop_within (h : Within P l l) (hlist : P list) (hnode : P node)
    (hok : pop l list node = .ok l') : Within P l l' := by
  unfold pop at hok
  split at hok
  · exact (Except.ok.inj hok) ▸ h
  split at hok
  · rw [← Except.ok.inj hok]
    exact (((h.setNext hnode family_none).setPrev hnode family_none).setNext hlist
      (family_some hlist)).setPrev hlist (family_some hlist)
  split at hok
  · unfold popFrontInternal at hok
    split at hok
    · exact absurd hok (by simp)
    · rename_i head hhead
      have hP : P head := h.next_mem node head hnode hhead
      rw [← Except.ok.inj hok]
      exact (((h.setNext hlist (family_some hP)).setPrev hP (family_some hlist)).setNext hnode
        family_none).setPrev hnode family_none
  split at hok
  · unfold popBackInternal at hok
    split at hok
    · exact absurd hok (by simp)
    · rename_i tail htail
      have hP : P tail := h.prev_mem node tail hnode htail
      rw [← Except.ok.inj hok]
      exact (((h.setPrev hlist (family_some hP)).setNext hP (family_some hlist)).setNext hnode
        family_none).setPrev hnode family_none
  · split at hok
    · exact absurd hok (by simp)
    · rename_i next hnext
      have hP : P next := h.next_mem node next hnode hnext
      have h₁ := h.setPrev hP (y := l.prev node) (fun z hz => h.prev_mem node z hnode hz)
      simp only at hok
      split at hok
      · exact absurd hok (by simp)
      · rename_i prev hprev
        have hP' : P prev := h₁.prev_mem node prev hnode hprev
        rw [← Except.ok.inj hok]
        exact ((h₁.setNext hP' (fun z hz => h₁.next_mem node z hnode hz)).setNext hnode
          family_none).setPrev hnode family_none

end Family

end MugOS.LinkedList
