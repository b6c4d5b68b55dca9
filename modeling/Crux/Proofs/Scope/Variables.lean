import Crux.Proofs.Scope.Accepted

namespace Crux

def Symbol.IsAmong (vars : List Symbol) (s : Symbol) : Prop :=
  s ∈ vars ∨ ∃ params result, s.ty = .func params result

theorem Env.forall_open {P : Symbol → Prop} {env : Env} (h : ∀ scope ∈ env, ∀ s ∈ scope, P s) :
    ∀ scope ∈ [] :: env, ∀ s ∈ scope, P s :=
  List.forall_mem_cons.mpr ⟨List.forall_mem_nil _, h⟩

theorem Env.forall_after {P : Symbol → Prop} {env : Env} (h : ∀ scope ∈ env, ∀ s ∈ scope, P s)
    {n : Node} (hn : ∀ s ∈ n.binds, P s) : ∀ scope ∈ n.after env, ∀ s ∈ scope, P s := by
  unfold Node.after
  split
  · rename_i s hs
    exact Env.forall_declare h (hn s hs)
  · exact h

theorem Env.forall_foldl_after {P : Symbol → Prop} {env : Env} {items : List Node}
    (h : ∀ scope ∈ env, ∀ s ∈ scope, P s) (hi : ∀ n ∈ items, ∀ s ∈ n.binds, P s) :
    ∀ scope ∈ items.foldl Node.after env, ∀ s ∈ scope, P s := by
  induction items generalizing env with
  | nil => exact h
  | cons n items ih =>
    obtain ⟨hn, hitems⟩ := List.forall_mem_cons.mp hi
    exact ih (Env.forall_after h hn) hitems

theorem Env.builtins_among (vars : List Symbol) :
    ∀ scope ∈ Env.builtins, ∀ s ∈ scope, s.IsAmong vars := by
  intro scope hscope s hs
  rw [List.mem_singleton.mp hscope] at hs
  obtain ⟨i, hi, rfl⟩ := List.mem_mapIdx.mp hs
  exact .inr ⟨_, _, rfl⟩

def Role.InBody : Role → Prop
  | .declaration | .program => False
  | _ => True

namespace Node

def InBody : Node → Prop
  | .function .. | .list _ .declarations _ => False
  | _ => True

def UsesVar (vars : List Symbol) : Node → Prop
  | .addressOf _ s => s.IsAmong vars
  | _ => True

def stored : Node → List Symbol
  | .var _ s | .array _ s => [s]
  | _ => []

def globals (root : Node) : List Symbol := root.children.flatMap stored

end Node

def Node.variables (root : Node) : Node → List Symbol
  | .function _ _ params body => params ++ body.declared ++ root.globals
  | _ => root.globals

namespace Node

variable {role : Role} {env : Env} {n : Node} {vars : List Symbol}

theorem declared_of_child {m : Node} (h : m ∈ n.children) : ∀ s ∈ m.declared, s ∈ n.declared := by
  intro s hs
  rw [declared_eq]
  exact List.mem_append_right _ (List.mem_flatMap.mpr ⟨m, h, hs⟩)

theorem declared_of_binds {s : Symbol} (h : s ∈ n.binds) : s ∈ n.declared := by
  rw [declared_eq]
  refine List.mem_append_left _ ?_
  cases n with
  | var | array | function =>
    cases h
    exact List.mem_cons_self
  | _ => cases h

theorem Scoped.parts (h : Scoped role env n) (hrole : role.InBody)
    (he : ∀ scope ∈ env, ∀ s ∈ scope, s.IsAmong vars) (hn : ∀ s ∈ n.declared, s ∈ vars) :
    ∀ m ∈ n.preorder, m.InBody ∧ m.UsesVar vars := by
  induction h with
  | int | float | bool | error | leave => exact forall_leaf rfl ⟨trivial, trivial⟩
  | addressOf hl =>
    obtain ⟨scope, hscope, hs⟩ := Env.mem_of_lookup hl
    exact forall_leaf rfl ⟨trivial, he scope hscope _ hs⟩
  | dereference _ ih | not _ ih | call _ _ ih | leaveWith _ ih =>
    exact forall_preorder ⟨trivial, trivial⟩ (List.forall_mem_singleton.mpr
      (ih trivial he fun s hs => hn s (declared_of_child (by simp [children]) s hs)))
  | binary _ _ iha ihb | compare _ _ iha ihb | index _ _ iha ihb | assign _ _ iha ihb =>
    have ha := iha trivial he fun s hs => hn s (declared_of_child (by simp [children]) s hs)
    have hb := ihb trivial he fun s hs => hn s (declared_of_child (by simp [children]) s hs)
    exact forall_preorder ⟨trivial, trivial⟩ (by simpa [children] using ⟨ha, hb⟩)
  | arguments _ ih =>
    exact forall_preorder ⟨trivial, trivial⟩ fun m hm =>
      ih m hm trivial he fun s hs => hn s (declared_of_child hm s hs)
  | branch _ _ _ ihc ihy ihz =>
    have he' := Env.forall_open he
    have hc := ihc trivial he fun s hs => hn s (declared_of_child (by simp [children]) s hs)
    have hy := ihy trivial he' fun s hs => hn s (declared_of_child (by simp [children]) s hs)
    have hz := ihz trivial he' fun s hs => hn s (declared_of_child (by simp [children]) s hs)
    exact forall_preorder ⟨trivial, trivial⟩ (by simpa [children] using ⟨hc, hy, hz⟩)
  | loop _ _ ihc ihb =>
    have he' := Env.forall_open he
    have hc := ihc trivial he fun s hs => hn s (declared_of_child (by simp [children]) s hs)
    have hb := ihb trivial he' fun s hs => hn s (declared_of_child (by simp [children]) s hs)
    exact forall_preorder ⟨trivial, trivial⟩ (by simpa [children] using ⟨hc, hb⟩)
  | block _ ih =>
    refine forall_preorder ⟨trivial, trivial⟩ fun m hm => ?_
    obtain ⟨before, rest, rfl⟩ := List.append_of_mem hm
    refine ih before m rest rfl trivial (Env.forall_foldl_after he fun u hu s hs => ?_)
      fun s hs => hn s (declared_of_child hm s hs)
    exact .inl (hn s (declared_of_child (List.mem_append_left _ hu) s (declared_of_binds hs)))
  | «local» h hf _ =>
    cases h with
    | function => exact absurd rfl (hf _ _ _ _)
    | _ => exact forall_leaf rfl ⟨trivial, trivial⟩
  | result _ ih => exact ih trivial he hn
  | _ => exact hrole.elim

theorem count_stored_le (n : Node) (k : Nat) :
    (n.stored.map Symbol.id).count k ≤ n.symbolIds.count k := by
  rw [symbolIds_eq, List.count_append]
  cases n with
  | var | array => exact Nat.le_add_right ..
  | _ => exact Nat.zero_le _

theorem count_globals_le (items : List Node) (k : Nat) :
    ((items.flatMap stored).map Symbol.id).count k ≤ (items.flatMap symbolIds).count k := by
  rw [List.map_flatMap]
  exact count_flatMap_le fun n _ => n.count_stored_le k

theorem count_variables_le {g : Tag} {s : Symbol} {params : List Symbol} {body : Node}
    {items : List Node} (h : .function g s params body ∈ items) (k : Nat) :
    ((params ++ body.declared ++ items.flatMap stored).map Symbol.id).count k ≤
      (items.flatMap symbolIds).count k := by
  induction items with
  | nil => cases h
  | cons n items ih =>
    simp only [List.flatMap_cons, List.map_append, List.count_append] at ih ⊢
    obtain rfl | h := List.mem_cons.mp h
    · have hr := count_globals_le items k
      have hf : ((params ++ body.declared).map Symbol.id).count k ≤
          (Node.function g s params body).symbolIds.count k := by
        rw [symbolIds_eq]
        simp only [children, declares, List.flatMap_singleton, List.map_append, List.map_cons,
          List.count_append, List.count_cons, symbolIds]
        omega
      simp only [List.map_append, List.count_append] at hf
      simp only [stored, List.map_nil, List.count_nil]
      omega
    · have := ih h
      have := n.count_stored_le k
      omega

theorem Accepted.nodup_variables {root : Node} (h : root.Accepted) {g : Tag} {s : Symbol}
    {params : List Symbol} {body : Node} (hf : .function g s params body ∈ root.children) :
    ((root.variables (.function g s params body)).map Symbol.id).Nodup := by
  obtain ⟨hs, -, k, hi⟩ := h
  have hd : root.declares = [] := by
    cases hs
    rfl
  refine List.nodup_iff_count.mpr fun i => Nat.le_trans (count_variables_le hf i) ?_
  have hi := hi.sorted
  rw [symbolIds_eq, hd] at hi
  exact List.nodup_iff_count.mp (hi.imp Nat.ne_of_lt) i

theorem nodup_binds {items : List Node} (h : InOrder (Scoped .declaration) env items) :
    (∀ s ∈ items.filterMap binds, env.IsNew s.name) ∧
      ((items.filterMap binds).map Symbol.name).Nodup := by
  induction items generalizing env with
  | nil => exact ⟨List.forall_mem_nil _, .nil⟩
  | cons n items ih =>
    obtain ⟨hn, hitems⟩ := h
    obtain ⟨hnew, hnodup⟩ := ih hitems
    obtain ⟨s, hb, hs⟩ : ∃ s, n.binds = some s ∧ env.IsNew s.name := by
      cases hn with
      | var h | array h | function h => exact ⟨_, rfl, h⟩
    have hlater : ∀ u ∈ items.filterMap binds, env.IsNew u.name ∧ s.name ≠ u.name := by
      intro u hu
      have h := hnew u hu
      rw [after, hb] at h
      exact ⟨fun v hv => h v (List.mem_append_left _ hv), h s (by simp [Env.declare])⟩
    rw [List.filterMap_cons_some hb]
    refine ⟨List.forall_mem_cons.mpr ⟨hs, fun u hu => (hlater u hu).1⟩, List.nodup_cons.mpr
      ⟨fun hm => ?_, hnodup⟩⟩
    obtain ⟨u, hu, e⟩ := List.mem_map.mp hm
    exact (hlater u hu).2 e.symm

theorem Accepted.nodup_binds {root : Node} (h : root.Accepted) :
    (∀ s ∈ root.children.filterMap binds, Env.builtins.IsNew s.name) ∧
      ((root.children.filterMap binds).map Symbol.name).Nodup := by
  obtain ⟨hs, -⟩ := h
  cases hs with
  | program hitems => exact Node.nodup_binds (inOrder_iff.mpr hitems)

theorem stored_sublist (items : List Node) :
    (items.flatMap stored).Sublist (items.filterMap binds) := by
  induction items with
  | nil => exact .slnil
  | cons n items ih =>
    cases n with
    | var | array => exact ih.cons_cons _
    | function => exact ih.cons _
    | _ => exact ih

theorem Accepted.nodup_globals {root : Node} (h : root.Accepted) :
    (root.globals.map Symbol.name).Nodup :=
  h.nodup_binds.2.sublist ((stored_sublist root.children).map _)

theorem Accepted.parts {root : Node} (h : root.Accepted) {g : Tag} {s : Symbol}
    {params : List Symbol} {body : Node} (hf : .function g s params body ∈ root.children) :
    ∀ m ∈ body.preorder, m.InBody ∧ m.UsesVar (root.variables (.function g s params body)) := by
  obtain ⟨hs, -⟩ := h
  cases hs with
  | @program items _ _ hitems =>
    obtain ⟨before, rest, rfl⟩ := List.append_of_mem hf
    have hfun {s : Symbol} {params vars : List Symbol} (hh : Head s params) : s.IsAmong vars := by
      obtain ⟨⟨result, -, ht⟩, -⟩ := hh
      exact .inr ⟨_, result, by rw [Symbol.ty, ht]; rfl⟩
    cases hitems before _ rest rfl with
    | function _ hhead hbody =>
      refine hbody.parts trivial (List.forall_mem_cons.mpr ⟨fun p hp => .inl ?_,
        Env.forall_declare (Env.forall_foldl_after (Env.builtins_among _) fun n hn u hu => ?_)
          (hfun hhead)⟩) fun u hu => ?_
      · simp [Node.variables, hp]
      · obtain ⟨b, r, e⟩ := List.append_of_mem hn
        cases hitems b n (r ++ .function g s params body :: rest) (by simp [e]) with
        | var | array =>
          cases hu
          exact .inl (List.mem_append_right _ (List.mem_flatMap.mpr
            ⟨_, List.mem_append_left _ hn, List.mem_cons_self⟩))
        | function _ hhead _ =>
          cases hu
          exact hfun hhead
      · simp [Node.variables, hu]

def uses : Node → List Symbol
  | .addressOf _ s | .call _ s _ => [s]
  | _ => []

variable {P : Symbol → Prop}

theorem Scoped.child {m : Node} (h : Scoped role env n) (hm : m ∈ n.children) :
    ∃ role env, Scoped role env m := by
  induction h with
  | int | float | bool | error | leave | var | array | addressOf => cases hm
  | dereference h | not h | call _ h | leaveWith h | function _ _ h =>
    obtain rfl := List.mem_singleton.mp hm
    exact ⟨_, _, h⟩
  | binary ha hb | compare ha hb | index ha hb | assign ha hb | loop ha hb =>
    obtain rfl | hm := List.mem_cons.mp hm
    · exact ⟨_, _, ha⟩
    · obtain rfl := List.mem_singleton.mp hm
      exact ⟨_, _, hb⟩
  | branch hc hy hz =>
    simp only [children, List.mem_cons, List.not_mem_nil, or_false] at hm
    obtain rfl | rfl | rfl := hm
    · exact ⟨_, _, hc⟩
    · exact ⟨_, _, hy⟩
    · exact ⟨_, _, hz⟩
  | arguments h => exact ⟨_, _, h m hm⟩
  | block h | program h =>
    obtain ⟨before, rest, rfl⟩ := List.append_of_mem hm
    exact ⟨_, _, h before m rest rfl⟩
  | «local» _ _ ih | result _ ih => exact ih hm

theorem Scoped.part (h : Scoped role env n) : ∀ m ∈ n.preorder, ∃ role env, Scoped role env m := by
  induction n using children_induction generalizing role env with
  | step n ih =>
    refine forall_preorder ⟨role, env, h⟩ fun c hc => ?_
    obtain ⟨role', env', h'⟩ := h.child hc
    exact ih c hc h'

theorem forall_before {before rest : List Node} (he : ∀ scope ∈ env, ∀ s ∈ scope, P s)
    (hn : ∀ m ∈ before ++ n :: rest, ∀ s ∈ m.declared, P s) :
    ∀ scope ∈ before.foldl after env, ∀ s ∈ scope, P s :=
  Env.forall_foldl_after he fun m hm s hs =>
    hn m (List.mem_append_left _ hm) s (declared_of_binds hs)

theorem Scoped.uses (h : Scoped role env n) (he : ∀ scope ∈ env, ∀ s ∈ scope, P s)
    (hn : ∀ s ∈ n.declared, P s) : ∀ m ∈ n.preorder, ∀ s ∈ m.uses, P s := by
  have hchild {n m : Node} (hn : ∀ s ∈ n.declared, P s) (hm : m ∈ n.children) :
      ∀ s ∈ m.declared, P s :=
    fun s hs => hn s (declared_of_child hm s hs)
  induction h with
  | int | float | bool | error | leave | var | array =>
    exact forall_leaf rfl (List.forall_mem_nil _)
  | addressOf hl =>
    obtain ⟨scope, hscope, hs⟩ := Env.mem_of_lookup hl
    exact forall_leaf rfl (List.forall_mem_singleton.mpr (he scope hscope _ hs))
  | dereference _ ih | not _ ih | leaveWith _ ih =>
    exact forall_preorder (List.forall_mem_nil _) (List.forall_mem_singleton.mpr
      (ih he (hchild hn (by simp [children]))))
  | call hl _ ih =>
    obtain ⟨scope, hscope, hs⟩ := Env.mem_of_lookup hl
    exact forall_preorder (List.forall_mem_singleton.mpr (he scope hscope _ hs))
      (List.forall_mem_singleton.mpr (ih he (hchild hn (by simp [children]))))
  | binary _ _ iha ihb | compare _ _ iha ihb | index _ _ iha ihb | assign _ _ iha ihb =>
    have ha := iha he (hchild hn (by simp [children]))
    have hb := ihb he (hchild hn (by simp [children]))
    exact forall_preorder (List.forall_mem_nil _)
      (List.forall_mem_cons.mpr ⟨ha, List.forall_mem_singleton.mpr hb⟩)
  | arguments _ ih =>
    exact forall_preorder (List.forall_mem_nil _) fun m hm => ih m hm he (hchild hn hm)
  | function _ _ _ ih =>
    have hd := hn
    rw [declared_eq] at hd
    have hp (s : Symbol) (hs : s ∈ declares (.function _ _ _ _)) : P s :=
      hd s (List.mem_append_left _ hs)
    refine forall_preorder (List.forall_mem_nil _) (List.forall_mem_singleton.mpr
      (ih ?_ (hchild hn (by simp [children]))))
    exact List.forall_mem_cons.mpr ⟨fun p hm => hp p (List.mem_cons_of_mem _ hm),
      Env.forall_declare he (hp _ List.mem_cons_self)⟩
  | branch _ _ _ ihc ihy ihz =>
    have hc := ihc he (hchild hn (by simp [children]))
    have hy := ihy (Env.forall_open he) (hchild hn (by simp [children]))
    have hz := ihz (Env.forall_open he) (hchild hn (by simp [children]))
    exact forall_preorder (List.forall_mem_nil _) (by simpa [children] using ⟨hc, hy, hz⟩)
  | loop _ _ ihc ihb =>
    have hc := ihc he (hchild hn (by simp [children]))
    have hb := ihb (Env.forall_open he) (hchild hn (by simp [children]))
    exact forall_preorder (List.forall_mem_nil _) (by simpa [children] using ⟨hc, hb⟩)
  | block _ ih | program _ ih =>
    refine forall_preorder (List.forall_mem_nil _) fun m hm => ?_
    obtain ⟨before, rest, rfl⟩ := List.append_of_mem hm
    exact ih before m rest rfl (forall_before he fun k hk => hchild hn hk) (hchild hn hm)
  | «local» _ _ ih | result _ ih => exact ih he hn

end Node

end Crux
