import Mathlib.Data.List.Chain
import Mathlib.Data.List.Nodup

/-! Doubly linked nodes over an arbitrary type of addresses.  A memory gives
each node two pointers; a run of nodes is linked when every node points forward
to the next one and back to the one before.  All surgery on such runs is made
of one operation, `link`, which joins two nodes; `Chain.join` says that it joins
two runs, and the frame lemmas say which runs it leaves alone. -/

namespace Pintos.LinkedNodes

inductive Side
  | prev
  | next
  deriving DecidableEq

/-- The two pointers of every node; `none` is the null pointer. -/
abbrev Mem (α : Type*) := α → Side → Option α

variable {α : Type*} [DecidableEq α]

def store (m : Mem α) (node : α) (side : Side) (pointer : Option α) : Mem α :=
  fun other field => if other = node ∧ field = side then pointer else m other field

@[simp] theorem store_same (m : Mem α) (node : α) (side : Side) (pointer : Option α) :
    store m node side pointer node side = pointer := by
  simp [store]

@[simp] theorem store_prev_next (m : Mem α) (node other : α) (pointer : Option α) :
    store m node .prev pointer other .next = m other .next := by
  simp [store]

@[simp] theorem store_next_prev (m : Mem α) (node other : α) (pointer : Option α) :
    store m node .next pointer other .prev = m other .prev := by
  simp [store]

theorem store_other (m : Mem α) {node other : α} (differ : other ≠ node) (side field : Side)
    (pointer : Option α) : store m node side pointer other field = m other field := by
  simp [store, differ]

theorem store_comm (m : Mem α) {a b : α} {s t : Side} (differ : (a, s) ≠ (b, t))
    (p q : Option α) : store (store m a s p) b t q = store (store m b t q) a s p := by
  funext node side
  by_cases atA : node = a ∧ side = s
  · obtain ⟨rfl, rfl⟩ := atA
    have notB : ¬ (node = b ∧ side = t) := by simpa using differ
    simp [store, notB]
  · simp [store, atA]

/-- Node `a` is directly followed by node `b`. -/
def Linked (m : Mem α) (a b : α) : Prop :=
  m a .next = some b ∧ m b .prev = some a

def Chain (m : Mem α) (nodes : List α) : Prop :=
  nodes.IsChain (Linked m)

def link (m : Mem α) (a b : α) : Mem α :=
  store (store m a .next (some b)) b .prev (some a)

theorem link_next (m : Mem α) (a b node : α) :
    link m a b node .next = if node = a then some b else m node .next := by
  simp [link, store]

theorem link_prev (m : Mem α) (a b node : α) :
    link m a b node .prev = if node = b then some a else m node .prev := by
  simp [link, store]

theorem link_other (m : Mem α) {a b node : α} (notA : node ≠ a) (notB : node ≠ b)
    (side : Side) : link m a b node side = m node side := by
  cases side with
  | prev => rw [link_prev, if_neg notB]
  | next => rw [link_next, if_neg notA]

theorem stores_link (m : Mem α) {a b first last : α} (differ : last ≠ a) :
    store (store (store (store m first .prev (some a)) last .next (some b)) a .next (some first))
        b .prev (some last) =
      link (link m a first) last b := by
  have fields : (last, Side.next) ≠ (a, Side.next) := by simp [differ]
  have sides : (first, Side.prev) ≠ (a, Side.next) := by simp
  rw [link, link, store_comm _ fields, store_comm m sides]

omit [DecidableEq α] in
/-- A chain only depends on the forward pointers of all its nodes but the last and
on the backward pointers of all but the first. -/
theorem Chain.congr {m m' : Mem α} {nodes : List α} (chain : Chain m nodes)
    (next : ∀ node ∈ nodes.dropLast, m' node .next = m node .next)
    (prev : ∀ node ∈ nodes.tail, m' node .prev = m node .prev) : Chain m' nodes := by
  induction nodes with
  | nil => exact List.isChain_nil
  | cons a rest ih =>
    cases rest with
    | nil => exact List.isChain_singleton a
    | cons b rest =>
      have parts := List.isChain_cons_cons.mp chain
      have linked : Linked m' a b := by
        constructor
        · rw [next a (by simp), parts.1.1]
        · rw [prev b (by simp), parts.1.2]
      have later : Chain m' (b :: rest) := by
        apply ih parts.2
        · intro node member
          exact next node (by simp [member])
        · intro node member
          exact prev node (List.mem_cons_of_mem b member)
      exact List.isChain_cons_cons.mpr ⟨linked, later⟩

omit [DecidableEq α] in
theorem Chain.frame {m m' : Mem α} {nodes : List α} (chain : Chain m nodes)
    (same : ∀ node ∈ nodes, ∀ side, m' node side = m node side) : Chain m' nodes :=
  chain.congr (fun node member => same node (List.dropLast_subset nodes member) .next)
    (fun node member => same node (List.mem_of_mem_tail member) .prev)

omit [DecidableEq α] in
theorem chain_append {m : Mem α} {front back : List α} {a b : α} :
    Chain m (front ++ a :: b :: back) ↔
      Chain m (front ++ [a]) ∧ Linked m a b ∧ Chain m (b :: back) := by
  simp only [Chain, List.isChain_append_cons_cons]

theorem Chain.join {m : Mem α} {front back : List α} {a b : α} (left : Chain m (front ++ [a]))
    (right : Chain m (b :: back)) (nodup : (front ++ a :: b :: back).Nodup) : Chain (link m a b)
    (front ++ a :: b :: back) := by
  have apart := List.nodup_append.mp nodup
  have fresh : a ∉ b :: back := (List.nodup_cons.mp apart.2.1).1
  have freshB : b ∉ back := (List.nodup_cons.mp (List.nodup_cons.mp apart.2.1).2).1
  refine chain_append.mpr ⟨left.congr ?_ ?_, by simp [Linked, link_next, link_prev],
    right.congr ?_ ?_⟩
  · intro node member
    rw [List.dropLast_concat] at member
    have differ : node ≠ a := fun same => apart.2.2 node member a (by simp) same
    rw [link_next, if_neg differ]
  · intro node member
    have differ : node ≠ b := by
      rintro rfl
      have inside := List.mem_of_mem_tail member
      rcases List.mem_append.mp inside with early | last
      · exact apart.2.2 node early node (by simp) rfl
      · exact fresh (by simp [List.mem_singleton.mp last])
    rw [link_prev, if_neg differ]
  · intro node member
    have differ : node ≠ a := by
      rintro rfl
      exact fresh (List.dropLast_subset _ member)
    rw [link_next, if_neg differ]
  · intro node member
    have differ : node ≠ b := by
      rintro rfl
      exact freshB member
    rw [link_prev, if_neg differ]

theorem Chain.link_off {m : Mem α} {nodes : List α} (chain : Chain m nodes) {a b : α}
    (offA : a ∉ nodes) (offB : b ∉ nodes) : Chain (link m a b) nodes := by
  apply chain.frame
  intro node member side
  have notA : node ≠ a := fun same => offA (same ▸ member)
  have notB : node ≠ b := fun same => offB (same ▸ member)
  exact link_other m notA notB side

theorem Chain.paste {m : Mem α} {front back middle rest body : List α} {a b first last : α}
    (left : Chain m (front ++ [a])) (right : Chain m (b :: back)) (run : Chain m middle)
    (starts : middle = first :: rest) (ends : middle = body ++ [last])
    (nodup : (front ++ a :: (middle ++ b :: back)).Nodup) :
    Chain (link (link m a first) last b) (front ++ a :: (middle ++ b :: back)) := by
  have begun : Chain (link m a first) (front ++ a :: middle) := by
    rw [starts] at run ⊢
    apply left.join run
    refine List.Nodup.sublist ?_ nodup
    rw [starts]
    simp
  have apart := List.nodup_append.mp nodup
  have behind : ∀ node ∈ b :: back, node ≠ a ∧ node ≠ first := by
    intro node member
    have tail := List.nodup_cons.mp apart.2.1
    constructor
    · rintro rfl
      exact tail.1 (List.mem_append_right middle member)
    · rintro rfl
      have early : node ∈ middle := by simp [starts]
      exact (List.nodup_append.mp tail.2).2.2 node early node member rfl
  have kept : Chain (link m a first) (b :: back) :=
    right.link_off (fun member => (behind a member).1 rfl)
      (fun member => (behind first member).2 rfl)
  have split : front ++ a :: (middle ++ b :: back) = (front ++ a :: body) ++ last :: b :: back := by
    simp [ends]
  rw [split] at nodup ⊢
  apply Chain.join _ kept nodup
  simpa [ends] using begun

def turn (m : Mem α) (node : α) : Mem α :=
  store (store m node .prev (m node .next)) node .next (m node .prev)

@[simp] theorem turn_next (m : Mem α) (node : α) : turn m node node .next = m node .prev := by
  simp [turn]

@[simp] theorem turn_prev (m : Mem α) (node : α) : turn m node node .prev = m node .next := by
  simp [turn]

theorem turn_other (m : Mem α) {node other : α} (differ : other ≠ node) (side : Side) :
    turn m node other side = m other side := by
  rw [turn, store_other _ differ, store_other _ differ]

omit [DecidableEq α] in
theorem Chain.reverse {m m' : Mem α} {nodes : List α} (chain : Chain m nodes)
    (next : ∀ node ∈ nodes, m' node .next = m node .prev)
    (prev : ∀ node ∈ nodes, m' node .prev = m node .next) : Chain m' nodes.reverse := by
  apply List.isChain_reverse.mpr
  apply List.IsChain.imp_of_mem_imp _ chain
  intro a b memberA memberB linked
  constructor
  · rw [next b memberB, linked.2]
  · rw [prev a memberA, linked.1]

end Pintos.LinkedNodes
