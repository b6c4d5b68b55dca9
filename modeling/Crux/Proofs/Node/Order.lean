import Crux.Node.Basic
import Mathlib.Data.List.Nodup

namespace Crux.Node

theorem sizeOf_lt_of_mem_children {m n : Node} (h : m ∈ n.children) : sizeOf m < sizeOf n := by
  cases n with
  | list g kind items =>
    have : sizeOf m < sizeOf items := List.sizeOf_lt_of_mem h
    simp only [list.sizeOf_spec]
    omega
  | _ => grind [children]

/-- What holds of a node whenever it holds of its children holds of every node. -/
@[elab_as_elim]
theorem children_induction {P : Node → Prop} (step : ∀ n, (∀ m ∈ n.children, P m) → P n)
    (n : Node) : P n :=
  step n fun m hm =>
    have := sizeOf_lt_of_mem_children hm
    children_induction step m
  termination_by sizeOf n

theorem map_walk (depth : Nat) (n : Node) : (n.walk depth).map (·.2) = n.preorder := by
  induction n using children_induction generalizing depth with
  | step n ih =>
    rw [preorder, walk_eq, walk_eq]
    rw [List.map_cons, List.map_cons, List.map_flatMap, List.map_flatMap]
    simp only [List.flatMap_def]
    congr 2
    exact List.map_congr_left fun m hm => (ih m hm _).trans (ih m hm _).symm

theorem preorder_eq (n : Node) : n.preorder = n :: n.children.flatMap preorder := by
  rw [preorder, walk_eq, List.map_cons, List.map_flatMap]
  simp only [map_walk]

theorem mem_preorder {m n : Node} : m ∈ n.preorder ↔ m = n ∨ ∃ k ∈ n.children, m ∈ k.preorder := by
  rw [preorder_eq, List.mem_cons, List.mem_flatMap]

theorem forall_preorder {P : Node → Prop} {n : Node} (hn : P n)
    (hc : ∀ m ∈ n.children, ∀ k ∈ m.preorder, P k) : ∀ m ∈ n.preorder, P m := by
  intro m hm
  obtain rfl | ⟨k, hk, hm⟩ := mem_preorder.mp hm
  · exact hn
  · exact hc k hk m hm

theorem forall_leaf {P : Node → Prop} {n : Node} (hc : n.children = []) (hn : P n) :
    ∀ m ∈ n.preorder, P m :=
  forall_preorder hn (hc ▸ List.forall_mem_nil _)

theorem forall_child {P : Node → Prop} {m n : Node} (h : ∀ k ∈ n.preorder, P k)
    (hm : m ∈ n.children) : ∀ k ∈ m.preorder, P k :=
  fun k hk => h k (mem_preorder.mpr (.inr ⟨m, hm, hk⟩))

theorem mem_preorder_trans {k m n : Node} (hk : k ∈ m.preorder) (hm : m ∈ n.preorder) :
    k ∈ n.preorder := by
  induction n using children_induction with
  | step n ih =>
    obtain rfl | ⟨c, hc, hm⟩ := mem_preorder.mp hm
    · exact hk
    · exact mem_preorder.mpr (.inr ⟨c, hc, ih c hc hm⟩)

theorem mem_preorder_self (n : Node) : n ∈ n.preorder := mem_preorder.mpr (.inl rfl)

mutual
def postorder (n : Node) : List Node :=
  (match n with
    | .dereference _ a | .not _ a | .call _ _ a | .function _ _ _ a | .leaveWith _ a => a.postorder
    | .index _ a b | .binary _ _ a b | .compare _ _ a b | .assign _ a b | .loop _ a b =>
      a.postorder ++ b.postorder
    | .branch _ a b c => a.postorder ++ b.postorder ++ c.postorder
    | .list _ _ items => postorderAll items
    | .int .. | .float .. | .bool .. | .addressOf .. | .var .. | .array .. | .leave ..
    | .error .. => []) ++ [n]

def postorderAll : List Node → List Node
  | [] => []
  | n :: rest => n.postorder ++ postorderAll rest
end

theorem postorderAll_eq_flatMap (items : List Node) :
    postorderAll items = items.flatMap postorder := by
  induction items with
  | nil => simp [postorderAll]
  | cons n rest ih => simp [postorderAll, ih]

theorem postorder_eq (n : Node) : n.postorder = n.children.flatMap postorder ++ [n] := by
  cases n <;> simp [postorder, children, postorderAll_eq_flatMap]

def ids (n : Node) : List Nat := n.postorder.map id

theorem ids_eq (n : Node) : n.ids = n.children.flatMap ids ++ [n.id] := by
  rw [ids, postorder_eq, List.map_append, List.map_flatMap]
  rfl

theorem mem_postorder {m n : Node} : m ∈ n.postorder ↔ m ∈ n.preorder := by
  induction n using children_induction with
  | step n ih =>
    rw [postorder_eq, mem_preorder, List.mem_append, List.mem_flatMap, List.mem_singleton, or_comm]
    exact or_congr_right (exists_congr fun c => and_congr_right fun hc => ih c hc)

theorem eq_of_id_eq {k m n : Node} (h : n.ids.Nodup) (hk : k ∈ n.preorder) (hm : m ∈ n.preorder)
    (he : k.id = m.id) : k = m :=
  List.inj_on_of_nodup_map h (mem_postorder.mpr hk) (mem_postorder.mpr hm) he

def declares : Node → List Symbol
  | .var _ s | .array _ s => [s]
  | .function _ s params _ => s :: params
  | _ => []

def declared (n : Node) : List Symbol := n.preorder.flatMap declares

theorem declared_eq (n : Node) : n.declared = n.declares ++ n.children.flatMap declared := by
  rw [declared, preorder_eq, List.flatMap_cons, List.flatMap_assoc]
  rfl

def symbolIds (n : Node) : List Nat := n.declared.map Symbol.id

theorem symbolIds_eq (n : Node) :
    n.symbolIds = n.declares.map Symbol.id ++ n.children.flatMap symbolIds := by
  rw [symbolIds, declared_eq, List.map_append, List.map_flatMap]
  rfl

theorem count_flatMap_le {items : List Node} {f g : Node → List Nat} {k : Nat}
    (h : ∀ m ∈ items, (f m).count k ≤ (g m).count k) :
    (items.flatMap f).count k ≤ (items.flatMap g).count k := by
  induction items with
  | nil => exact Nat.le_refl _
  | cons n rest ih =>
    obtain ⟨hn, hrest⟩ := List.forall_mem_cons.mp h
    simp only [List.flatMap_cons, List.count_append]
    exact Nat.add_le_add hn (ih hrest)

end Crux.Node
