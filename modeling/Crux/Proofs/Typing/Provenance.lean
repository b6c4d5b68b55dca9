import Crux.Proofs.Typing.Tables

namespace Crux

namespace Ty

mutual
def messages : Ty → List String
  | .error message => [message]
  | .array _ t | .address t => t.messages
  | .func params result => messagesAll params ++ result.messages
  | .int | .float | .bool | .void => []

def messagesAll : List Ty → List String
  | [] => []
  | t :: ts => t.messages ++ messagesAll ts
end

theorem messagesAll_eq_flatMap (ts : List Ty) : messagesAll ts = ts.flatMap messages := by
  induction ts with
  | nil => simp [messagesAll]
  | cons t ts ih => simp [messagesAll, ih]

variable {message : String}

theorem mem_messages_error : message ∈ (error message).messages := by
  simp [messages]

theorem mem_messages_of_signature {t : Ty} (h : t.signatureError? = some (.error message)) :
    message ∈ t.messages := by
  cases t with
  | func params result =>
    have hmem : .error message ∈ params ++ [result] := List.mem_of_find?_eq_some h
    have hall : message ∈ (params ++ [result]).flatMap messages :=
      List.mem_flatMap.mpr ⟨_, hmem, mem_messages_error⟩
    simpa [messages, messagesAll_eq_flatMap] using hall
  | _ => cases h

theorem passing_mem {inputs : List Ty} (h : inputs.any isError) (rule : Ty) :
    passing inputs rule ∈ inputs := by
  obtain ⟨t, ht⟩ := Option.isSome_iff_exists.mp (List.find?_isSome.mpr (List.any_eq_true.mp h))
  rw [passing, ht]
  exact List.mem_of_find?_eq_some ht

end Ty

namespace Node

variable {e : Option Enclosing} {c n : Node} {message : String}

theorem infer_mem_inputs (h : (n.inputs e).any Ty.isError) : n.infer e ∈ n.inputs e := by
  cases n with
  | int | float | bool | leave | var | array | function | list | error => cases h
  | addressOf g s =>
    have hs : s.ty.isError := by simpa [inputs] using h
    simp [infer, inputs, Ty.ofUse, hs]
  | dereference g a | not g a | index g a b | compare g op a b | assign g a b | branch g a b d
  | loop g a b =>
    simp only [inputs, infer] at h ⊢
    exact Ty.passing_mem h _
  | binary g op a b =>
    simp only [inputs, infer] at h ⊢
    cases op <;> exact Ty.passing_mem h _
  | call g s args =>
    simp only [inputs, infer] at h ⊢
    have hmem {t : Ty} : t ∈ args.members e ++ s.ty :: s.ty.signatureError?.toList ↔
        t ∈ s.ty :: (s.ty.signatureError?.toList ++ args.members e) := by
      simp only [List.mem_append, List.mem_cons]
      tauto
    refine hmem.mpr (Ty.passing_mem ?_ _)
    simpa only [List.any_eq_true, hmem] using h
  | leaveWith g v =>
    have hv : (v.infer e).isError := by simpa [inputs] using h
    cases e <;> simp [infer, inputs, Ty.ofReturn, hv]

theorem error_mem_inputs (h : .error message ∈ n.inputs e) :
    (∃ c ∈ n.children,
      c.infer (n.inside e) = .error message ∨ .error message ∈ c.members (n.inside e)) ∨
      ∃ s ∈ n.symbols, message ∈ s.ty.messages := by
  cases n with
  | int | float | bool | var | array | function | list | error => cases h
  | leave => cases List.mem_singleton.mp h
  | addressOf g s =>
    have hs := List.mem_singleton.mp h
    exact .inr ⟨s, List.mem_cons_self, hs ▸ Ty.mem_messages_error⟩
  | dereference g a | not g a | branch g a b d | loop g a b | leaveWith g a =>
    exact .inl ⟨a, List.mem_cons_self, .inl (List.mem_singleton.mp h).symm⟩
  | index g a b | binary g op a b | compare g op a b | assign g a b =>
    obtain h | h := List.mem_cons.mp h
    · exact .inl ⟨a, List.mem_cons_self, .inl h.symm⟩
    · exact .inl ⟨b, List.mem_cons_of_mem _ List.mem_cons_self,
        .inl (List.mem_singleton.mp h).symm⟩
  | call g s args =>
    obtain h | h := List.mem_append.mp h
    · exact .inl ⟨args, List.mem_cons_self, .inr h⟩
    · refine .inr ⟨s, List.mem_cons_self, ?_⟩
      obtain h | h := List.mem_cons.mp h
      · exact h ▸ Ty.mem_messages_error
      · exact Ty.mem_messages_of_signature (Option.mem_toList.mp h)

/-- The message is reported at a node of the tree, or it is part of the type of a symbol there. -/
def Accounts (e : Option Enclosing) (n : Node) (message : String) : Prop :=
  (∃ p ∈ n.located e, ⟨p.2.pos, message⟩ ∈ p.2.reports p.1) ∨
    ∃ k ∈ n.preorder, ∃ s ∈ k.symbols, message ∈ s.ty.messages

theorem Accounts.of_child (hc : c ∈ n.children) (h : c.Accounts (n.inside e) message) :
    n.Accounts e message := by
  obtain ⟨p, hp, hr⟩ | ⟨k, hk, hs⟩ := h
  · exact .inl ⟨p, mem_located.mpr (.inr ⟨c, hc, hp⟩), hr⟩
  · exact .inr ⟨k, mem_preorder.mpr (.inr ⟨c, hc, hk⟩), hs⟩

theorem accounts_verdict (hi : n.infer e = .error message)
    (h : (n.inputs e).any Ty.isError = false)
    (hr : n.reports e = (n.verdict (n.infer e) (n.inputs e)).filterMap Finding.error?) :
    n.Accounts e message := by
  refine .inl ⟨(e, n), mem_located.mpr (.inl rfl), ?_⟩
  rw [hr, hi, verdict, h]
  exact List.mem_cons_self

theorem accounts (h : n.infer e = .error message ∨ .error message ∈ n.members e) :
    n.Accounts e message := by
  induction n using children_induction generalizing e with
  | step n ih =>
    obtain h | h := h
    · -- With an error among the operands the node hands it on, and without one it has made its own.
      cases hin : (n.inputs e).any Ty.isError with
      | true =>
        have hmem := infer_mem_inputs hin
        rw [h] at hmem
        obtain ⟨c, hc, hm⟩ | ⟨s, hs, hm⟩ := error_mem_inputs hmem
        · exact .of_child hc (ih c hc hm)
        · exact .inr ⟨n, mem_preorder_self n, s, hs, hm⟩
      | false =>
        cases n with
        | list => simp [infer] at h
        | function g s params body =>
          rw [infer] at h
          exact .inr ⟨_, mem_preorder_self _, s, List.mem_cons_self, h ▸ Ty.mem_messages_error⟩
        | _ => exact accounts_verdict h hin rfl
    · cases n with
      | list g kind items =>
        rw [members, inferAll_eq_map] at h
        obtain ⟨c, hc, h⟩ := List.mem_map.mp h
        exact .of_child hc (ih c hc (.inl h))
      | _ => simp [members] at h

end Node

namespace Checker

variable {root : Node} {message : String}

theorem errors_perm_located (h : root.ids.Nodup) :
    (empty.check root).errors.Perm ((root.located none).flatMap fun p => p.2.reports p.1) := by
  rw [Node.check_eq_of_nodup h, errors_add]
  exact root.errors_located none

theorem errorReport_eq {c : Checker} {pos : Position} (h : ⟨pos, message⟩ ∈ c.errors) :
    ∃ before after, c.errorReport =
      before ++ s!"TypeError({pos.render})[{message}]" ++ "\n" ++ after := by
  obtain ⟨xs, ys, e⟩ := List.append_of_mem h
  refine ⟨String.join (xs.map fun x => x.render ++ "\n"),
    String.join (ys.map fun x => x.render ++ "\n"), ?_⟩
  rw [errorReport, e, List.map_append, String.join_append, List.map_cons, String.join_cons,
    TypeError.render]
  simp only [String.append_assoc]

/-- In a tree whose nodes have different numbers, an error in the table is the type of a node. It has
been reported at this node or below, or it is part of the type of a symbol that is named there. -/
theorem check_errors_accounted (h : root.ids.Nodup) :
    let c := empty.check root
    (∀ id message, c.types[id]? = some (.error message) → ∃ n ∈ root.preorder, n.id = id) ∧
      ∀ n ∈ root.preorder, ∀ message, c.typeOf? n = some (.error message) →
        (∃ k ∈ n.preorder, ⟨k.pos, message⟩ ∈ c.errors ∧ ∃ before after, c.errorReport =
          before ++ s!"TypeError({k.pos.render})[{message}]" ++ "\n" ++ after) ∨
        ∃ k ∈ n.preorder, ∃ s ∈ k.symbols, message ∈ s.ty.messages := by
  intro c
  refine ⟨fun id message ht => ?_, fun n hn message ht => ?_⟩
  · obtain ⟨p, hp, -, hid, -⟩ := (types_iff_located h).mp ht
    exact ⟨p.2, Node.mem_preorder_of_located hp, hid⟩
  · obtain ⟨⟨e, k⟩, hp, -, hid, hi⟩ := (types_iff_located h).mp ht
    obtain rfl := Node.eq_of_id_eq h (Node.mem_preorder_of_located hp) hn hid
    refine (Node.accounts (.inl hi.symm)).imp_left ?_
    rintro ⟨p, hpk, hr⟩
    have herror : ⟨p.2.pos, message⟩ ∈ c.errors := (errors_perm_located h).mem_iff.mpr
      (List.mem_flatMap.mpr ⟨p, Node.located_trans hp hpk, hr⟩)
    exact ⟨p.2, Node.mem_preorder_of_located hpk, herror, errorReport_eq herror⟩

def silentNode : Node :=
  .not ⟨2, ⟨1, 1⟩⟩ (.call ⟨1, ⟨1, 2⟩⟩ ⟨0, "f", some (.func [.error "Unknown type: t."] .bool)⟩
    (.int ⟨0, ⟨1, 4⟩⟩ 7))

def loudNode : Node :=
  .compare ⟨7, ⟨2, 2⟩⟩ .lt (.binary ⟨5, ⟨2, 4⟩⟩ .add (.int ⟨3, ⟨2, 3⟩⟩ 1) (.bool ⟨4, ⟨2, 5⟩⟩ true))
    (.int ⟨6, ⟨2, 6⟩⟩ 2)

theorem check_errors_accounted_silent :
    let root := Node.list ⟨8, .start⟩ .statements [silentNode, loudNode]
    let c := empty.check root
    root.ids.Nodup ∧ c.typeOf? silentNode = some (.error "Unknown type: t.") ∧
      (∃ k ∈ silentNode.preorder, ∃ s ∈ k.symbols, "Unknown type: t." ∈ s.ty.messages) ∧
      c.typeOf? loudNode = some (.error "Cannot add int with bool.") ∧
      ∃ k ∈ loudNode.preorder, ⟨k.pos, "Cannot add int with bool."⟩ ∈ c.errors := by
  intro root c
  have hn : root.ids.Nodup := by decide
  have hs : c.typeOf? silentNode = some (.error "Unknown type: t.") ∧
      ∀ x ∈ c.errors, x.message ≠ "Unknown type: t." := by
    decide +kernel
  have hl : c.typeOf? loudNode = some (.error "Cannot add int with bool.") ∧
      ∀ k ∈ loudNode.preorder, k.symbols = [] := by
    decide +kernel
  have hmem {n : Node} (hn : n ∈ root.children) : n ∈ root.preorder :=
    Node.mem_preorder.mpr (.inr ⟨n, hn, Node.mem_preorder_self n⟩)
  obtain ⟨-, h⟩ := check_errors_accounted hn
  refine ⟨hn, hs.1, ?_, hl.1, ?_⟩
  · refine (h silentNode (hmem List.mem_cons_self) _ hs.1).resolve_left ?_
    rintro ⟨k, -, hk, -⟩
    exact hs.2 _ hk rfl
  · obtain ⟨k, hk, he, -⟩ | ⟨k, hk, s, hsym, -⟩ :=
      h loudNode (hmem (List.mem_cons_of_mem _ List.mem_cons_self)) _ hl.1
    · exact ⟨k, hk, he⟩
    · rw [hl.2 k hk] at hsym
      cases hsym

end Checker

end Crux
