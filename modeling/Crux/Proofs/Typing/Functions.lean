import Crux.Proofs.Typing.Program

namespace Crux

theorem BinaryOp.Joins.isScalar {op : BinaryOp} {t : Ty} (h : op.Joins t) : t.isScalar := by
  cases op with
  | and | or =>
    cases h
    rfl
  | _ => obtain rfl | rfl := h <;> rfl

namespace Node

/-- The function whose name a return statement gives back instead of a value. -/
def returnedFunction? : Node → Option Symbol
  | .leaveWith _ (.dereference _ (.addressOf _ s)) =>
    match s.ty with
    | .func .. => some s
    | _ => none
  | _ => none

inductive Holds (s : Symbol) : Node → Prop
  | address : Holds s (.addressOf g s)
  | value : Holds s (.dereference g (.addressOf g' s))
  | arguments : .dereference g (.addressOf g' s) ∈ items → Holds s (.list g'' .expressions items)

variable {f : Enclosing} {k m n : Node} {role : Role} {env : Env} {g : Tag} {s : Symbol} {t : Ty}
  {root : Node}

theorem HasType.of_name {g' : Tag} (h : HasType f (.dereference g (.addressOf g' s)) t) :
    s.type? = some t := by
  cases h with
  | dereference h =>
    cases h with
    | addressOf h => exact h

/-- Where names of functions stand, and the lists of arguments that hold them: they are looked
through, given back, or handed to a call. -/
theorem HasTypes.parent {c : Node} {ps : List Ty} {r : Ty} (h : k.HasTypes f)
    (hs : Scoped role env k) (hc : c ∈ k.children)
    (hty : ∀ t, c.HasType f t → t = .func ps r ∨ t = .address (.func ps r))
    (hrole : ∀ role env, Scoped role env c → role = .value ∨ role = .address ∨ role = .arguments) :
    (∃ g, k = .dereference g c) ∨ (∃ g, k = .leaveWith g c) ∨ (∃ g s, k = .call g s c) ∨
      ∃ g items, k = .list g .expressions items := by
  have hscalar {t : Ty} (ht : c.HasType f t) : t.isScalar = false := by
    obtain rfl | rfl := hty t ht <;> rfl
  have hlist {g : Tag} {items : List Node} : c ≠ .list g .statements items := by
    rintro rfl
    obtain ⟨role', env', hsc⟩ := hs.child hc
    obtain rfl | rfl | rfl := hrole role' env' hsc <;> cases hsc
  cases h with
  | node h =>
    cases h with
    | int | float | bool | addressOf | var | array | leave => cases hc
    | dereference =>
      obtain rfl := List.mem_singleton.mp hc
      exact .inl ⟨_, rfl⟩
    | leaveWith =>
      obtain rfl := List.mem_singleton.mp hc
      exact .inr (.inl ⟨_, rfl⟩)
    | not h =>
      obtain rfl := List.mem_singleton.mp hc
      cases hscalar h
    | call =>
      obtain rfl := List.mem_singleton.mp hc
      exact .inr (.inr (.inl ⟨_, _, rfl⟩))
    | index hb ha =>
      obtain rfl | hc := List.mem_cons.mp hc
      · simpa using hty _ hb
      · obtain rfl := List.mem_singleton.mp hc
        cases hscalar ha
    | binary hj ha hb =>
      obtain rfl | hc := List.mem_cons.mp hc
      · cases hj.isScalar.symm.trans (hscalar ha)
      · obtain rfl := List.mem_singleton.mp hc
        cases hj.isScalar.symm.trans (hscalar hb)
    | compare hnum ha hb =>
      obtain rfl | hc := List.mem_cons.mp hc
      · obtain rfl | rfl := hnum <;> cases hscalar ha
      · obtain rfl := List.mem_singleton.mp hc
        obtain rfl | rfl := hnum <;> cases hscalar hb
    | assign ha ht hb =>
      obtain rfl | hc := List.mem_cons.mp hc
      · obtain h | h := hty _ ha <;> cases h
        cases ht
      · obtain rfl := List.mem_singleton.mp hc
        cases ht.symm.trans (hscalar hb)
    | branch hcond =>
      obtain rfl | hc := List.mem_cons.mp hc
      · cases hscalar hcond
      · obtain hc | hc := List.mem_cons.mp hc
        · exact (hlist hc).elim
        · exact (hlist (List.mem_singleton.mp hc)).elim
    | loop hcond =>
      obtain rfl | hc := List.mem_cons.mp hc
      · cases hscalar hcond
      · exact (hlist (List.mem_singleton.mp hc)).elim
  | row =>
    cases hs with
    | arguments => exact .inr (.inr (.inr ⟨_, _, rfl⟩))
    | block h =>
      obtain ⟨before, rest, e⟩ := List.append_of_mem hc
      obtain h | h | h := hrole _ _ (h before _ rest e) <;> cases h
    | program h =>
      obtain ⟨before, rest, e⟩ := List.append_of_mem hc
      obtain h | h | h := hrole _ _ (h before _ rest e) <;> cases h
    | «local» h => cases h

theorem exists_scalar {c : Node} {items : List Node} {ts : List Ty}
    (h : List.Forall₂ (HasType f) items ts) (hts : ∀ t ∈ ts, t.isScalar) (hc : c ∈ items) :
    ∃ t, c.HasType f t ∧ t.isScalar := by
  induction h with
  | nil => cases hc
  | cons ht _ ih =>
    obtain ⟨hscalar, hrest⟩ := List.forall_mem_cons.mp hts
    obtain rfl | hc := List.mem_cons.mp hc
    · exact ⟨_, ht, hscalar⟩
    · exact ih hrest hc

theorem HasTypes.argument {c : Node} {items : List Node} {g' : Tag}
    (h : HasTypes f (.call g s (.list g' .expressions items))) (hs : s.IsDeclarable)
    (hc : c ∈ items) : ∃ t, c.HasType f t ∧ t.isScalar := by
  obtain ⟨t, ht, hd⟩ := hs
  cases h with
  | node h =>
    cases h with
    | call hfun hargs =>
      cases ht.symm.trans hfun
      exact exists_scalar hargs hd.1 hc

theorem Holds.of_hasType {ps : List Ty} {r : Ty} (h : Holds s n)
    (hfun : s.type? = some (.func ps r)) (ht : n.HasType f t) :
    t = .func ps r ∨ t = .address (.func ps r) := by
  cases h with
  | address =>
    cases ht with
    | addressOf ht =>
      cases hfun.symm.trans ht
      exact .inr rfl
  | value => exact .inl (Option.some.inj (ht.of_name.symm.trans hfun))
  | arguments => cases ht

theorem Holds.of_scoped (h : Holds s n) (hs : Scoped role env n) :
    role = .value ∨ role = .address ∨ role = .arguments := by
  cases h with
  | address =>
    cases hs with
    | addressOf => exact .inr (.inl rfl)
    | «local» h => cases h
  | value =>
    cases hs with
    | dereference => exact .inl rfl
    | «local» h => cases h
  | arguments =>
    cases hs with
    | arguments => exact .inr (.inr rfl)
    | «local» h => cases h

theorem Holds.step {ps : List Ty} {r : Ty} (h : Holds s m) (hfun : s.type? = some (.func ps r))
    (hm : m ∈ k.children) (hk : k.HasTypes f) (hs : Scoped role env k)
    (hu : ∀ s ∈ k.uses, s.IsDeclarable) : Holds s k ∨ k.returnedFunction? = some s := by
  obtain ⟨g, rfl⟩ | ⟨g, rfl⟩ | ⟨g, u, rfl⟩ | ⟨g, items, rfl⟩ :=
    hk.parent hs hm (fun t => h.of_hasType hfun) fun _ _ => h.of_scoped
  · cases h with
    | address => exact .inl .value
    | value | arguments =>
      cases hs with
      | dereference h => cases h
      | «local» h => cases h
  · cases h with
    | value => exact .inr (by simp [returnedFunction?, Symbol.ty_eq hfun])
    | address | arguments =>
      cases hs with
      | leaveWith h => cases h
      | «local» h => cases h
  · cases h with
    | arguments hmem =>
      obtain ⟨t, ht, hscalar⟩ := hk.argument (hu u (List.mem_singleton_self u)) hmem
      cases hfun.symm.trans ht.of_name
      cases hscalar
    | address | value =>
      obtain ⟨t, ⟨⟩⟩ := hk.hasType rfl
  · cases hs with
    | arguments hitems =>
      cases h with
      | value => exact .inl (.arguments hm)
      | address | arguments => cases hitems _ hm
    | «local» h => cases h

theorem HasTypes.holds_or_returned {ps : List Ty} {r : Ty} (h : n.HasTypes f)
    (hs : Scoped role env n) (hu : ∀ m ∈ n.preorder, ∀ s ∈ m.uses, s.IsDeclarable)
    (hfun : s.type? = some (.func ps r)) (hm : .addressOf g s ∈ n.preorder) :
    Holds s n ∨ ∃ m ∈ n.preorder, m.returnedFunction? = some s := by
  induction n using children_induction generalizing role env with
  | step n ih =>
    obtain rfl | ⟨c, hc, hm⟩ := mem_preorder.mp hm
    · exact .inl .address
    · have hup {m : Node} (hm : m ∈ c.preorder) : m ∈ n.preorder :=
        mem_preorder.mpr (.inr ⟨c, hc, hm⟩)
      obtain ⟨_, _, hsc⟩ := hs.child hc
      obtain hheld | ⟨m, hmc, hret⟩ := ih c hc (h.child hc) hsc (fun m hm => hu m (hup hm)) hm
      · obtain hh | hret := hheld.step hfun hc h hs (hu n (mem_preorder_self n))
        · exact .inl hh
        · exact .inr ⟨n, mem_preorder_self n, hret⟩
      · exact .inr ⟨m, hup hmc, hret⟩

end Node

end Crux
