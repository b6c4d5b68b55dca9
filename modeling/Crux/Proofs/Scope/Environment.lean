import Crux.Grammar.Parser

namespace Crux

/-- The symbols of nested scopes, the innermost first. -/
abbrev Env := List (List Symbol)

def Symbol.settle (id : Nat) (t : Ty) (s : Symbol) : Symbol :=
  if s.id = id ∧ s.type? = none then { s with type? := some t } else s

theorem Symbol.settle_of_ne {id : Nat} {s : Symbol} (h : s.id = id → s.type?.isSome) (t : Ty) :
    s.settle id t = s := by
  refine if_neg ?_
  rintro ⟨hid, hn⟩
  simpa [hn] using h hid

namespace Env

def lookup (env : Env) (name : String) : Option Symbol :=
  env.findSome? fun scope => scope.find? (·.name = name)

def IsNew (env : Env) (name : String) : Prop := ∀ s ∈ env.headD [], s.name ≠ name

def declare (env : Env) (s : Symbol) : Env := (env.headD [] ++ [s]) :: env.tail

def SettledAt (id : Nat) (env : Env) : Prop :=
  ∀ scope ∈ env, ∀ s ∈ scope, s.id = id → s.type?.isSome

def Settled (env : Env) : Prop := ∀ scope ∈ env, ∀ s ∈ scope, s.type?.isSome

theorem Settled.at {env : Env} (h : env.Settled) (id : Nat) : env.SettledAt id :=
  fun scope hscope s hs _ => h scope hscope s hs

theorem mem_of_lookup {env : Env} {name : String} {s : Symbol} (h : env.lookup name = some s) :
    ∃ scope ∈ env, s ∈ scope := by
  obtain ⟨scope, hscope, h⟩ := List.exists_of_findSome?_eq_some h
  exact ⟨scope, hscope, List.mem_of_find?_eq_some h⟩

theorem name_of_lookup {env : Env} {name : String} {s : Symbol} (h : env.lookup name = some s) :
    s.name = name := by
  obtain ⟨scope, -, h⟩ := List.exists_of_findSome?_eq_some h
  simpa using List.find?_some h

theorem forall_declare {P : Symbol → Prop} {env : Env} (h : ∀ scope ∈ env, ∀ s ∈ scope, P s)
    {s : Symbol} (hs : P s) : ∀ scope ∈ env.declare s, ∀ u ∈ scope, P u := by
  refine List.forall_mem_cons.mpr ⟨fun u hu => ?_, fun scope hscope => ?_⟩
  · obtain hu | hu := List.mem_append.mp hu
    · cases env with
      | nil => cases hu
      | cons scope rest => exact h scope List.mem_cons_self u hu
    · exact List.mem_singleton.mp hu ▸ hs
  · exact h scope (List.mem_of_mem_tail hscope)

theorem Settled.declare {env : Env} (h : env.Settled) {s : Symbol} (hs : s.type?.isSome) :
    (env.declare s).Settled :=
  forall_declare h hs

theorem SettledAt.settle {env : Env} {id : Nat} (h : env.SettledAt id) (t : Ty) :
    env.map (List.map (Symbol.settle id t)) = env := by
  conv => rhs; rw [← List.map_id env]
  refine List.map_congr_left fun scope hscope => ?_
  conv => rhs; rw [id_eq, ← List.map_id scope]
  exact List.map_congr_left fun s hs => Symbol.settle_of_ne (h scope hscope s hs) t

theorem SettledAt.settle_declare {env : Env} {id : Nat} (h : env.SettledAt id) (name : String)
    (t : Ty) :
    (env.declare ⟨id, name, none⟩).map (List.map (Symbol.settle id t)) =
      env.declare ⟨id, name, some t⟩ := by
  have hs : Symbol.settle id t ⟨id, name, none⟩ = ⟨id, name, some t⟩ := by simp [Symbol.settle]
  have he := h.settle t
  cases env with
  | nil => simp [Env.declare, hs]
  | cons scope rest =>
    simp only [List.map_cons, List.cons.injEq] at he
    simp [Env.declare, hs, he]

end Env

namespace Scopes

def env (s : Scopes) : Env := s.chain.map (List.map s.symbol)

def Bounded (s : Scopes) : Prop := ∀ scope ∈ s.chain, ∀ b ∈ scope, b.id < s.types.size

theorem env_ne_nil (s : Scopes) : s.env ≠ [] := by simp [env, chain]

theorem Bounded.push {s : Scopes} (h : s.Bounded) : s.push.Bounded := by
  intro scope hs
  obtain rfl | hs := List.mem_cons.mp hs
  · simp
  · exact h scope hs

theorem env_pop {s : Scopes} {scope : List Symbol} {env : Env} (h : s.env = scope :: env)
    (hne : env ≠ []) : s.pop.env = env := by
  obtain ⟨outermost, inner, types⟩ := s
  cases inner with
  | nil =>
    simp only [Scopes.env, chain, List.nil_append, List.map_cons, List.map_nil, List.cons.injEq] at h
    exact absurd h.2.symm hne
  | cons first inner =>
    simp only [Scopes.env, chain, List.cons_append, List.map_cons, List.cons.injEq] at h
    exact h.2

theorem Bounded.pop {s : Scopes} (h : s.Bounded) : s.pop.Bounded := by
  intro scope hscope
  refine h scope ?_
  obtain hs | hs := List.mem_append.mp hscope
  · exact List.mem_append_left _ (List.mem_of_mem_tail hs)
  · exact List.mem_append_right _ hs

theorem env_congr {s s' : Scopes} (hc : s'.chain = s.chain)
    (ht : ∀ scope ∈ s.chain, ∀ b ∈ scope, s'.type? b = s.type? b) : s'.env = s.env := by
  unfold env
  rw [hc]
  refine List.map_congr_left fun scope hscope => List.map_congr_left fun b hb => ?_
  simp only [symbol, ht scope hscope b hb]

theorem type?_push {s : Scopes} {b : Binding} (h : b.id < s.types.size) (t? : Option Ty) :
    { s with types := s.types.push t? }.type? b = s.type? b := by
  simp only [type?, Array.getElem?_push_lt h, Array.getElem?_eq_getElem h]

theorem env_fresh {s : Scopes} (h : s.Bounded) (name : String) (t? : Option Ty) :
    (s.fresh name t?).2.env = s.env :=
  env_congr rfl fun scope hscope b hb => type?_push (h scope hscope b hb) t?

theorem Bounded.fresh {s : Scopes} (h : s.Bounded) (name : String) (t? : Option Ty) :
    (s.fresh name t?).2.Bounded := by
  intro scope hscope b hb
  have := h scope hscope b hb
  simp only [Scopes.fresh, Array.size_push]
  omega

theorem chain_enter (s : Scopes) (b : Binding) :
    (s.enter b).chain = (s.innermost ++ [b]) :: s.chain.tail := by
  obtain ⟨outermost, inner, types⟩ := s
  cases inner <;> rfl

theorem innermost_mem_chain (s : Scopes) : s.innermost ∈ s.chain := by
  obtain ⟨outermost, inner, types⟩ := s
  cases inner <;> simp [innermost, chain]

theorem types_enter (s : Scopes) (b : Binding) : (s.enter b).types = s.types := by
  unfold enter
  split <;> rfl

theorem env_enter (s : Scopes) (b : Binding) : (s.enter b).env = s.env.declare (s.symbol b) := by
  have hs : (s.enter b).symbol = s.symbol := by
    obtain ⟨outermost, inner, types⟩ := s
    cases inner <;> rfl
  unfold env
  rw [chain_enter, hs]
  obtain ⟨outermost, inner, types⟩ := s
  cases inner <;> simp [innermost, chain, Env.declare]

theorem headD_env (s : Scopes) : s.env.headD [] = s.innermost.map s.symbol := by
  obtain ⟨outermost, inner, types⟩ := s
  cases inner <;> rfl

theorem Bounded.enter {s : Scopes} (h : s.Bounded) {b : Binding} (hb : b.id < s.types.size) :
    (s.enter b).Bounded := by
  intro scope hscope u hu
  rw [types_enter]
  rw [chain_enter] at hscope
  obtain rfl | hscope := List.mem_cons.mp hscope
  · obtain hu | hu := List.mem_append.mp hu
    · exact h _ s.innermost_mem_chain u hu
    · rwa [List.mem_singleton.mp hu]
  · exact h scope (List.mem_of_mem_tail hscope) u hu

theorem find?_innermost (s : Scopes) (name : String) :
    s.innermost.find? name = none ↔ s.env.IsNew name := by
  rw [Env.IsNew, headD_env]
  simp [Scope.find?, symbol]

theorem declare_eq_ok_iff {s s' : Scopes} {name : String} {b : Binding} :
    s.declare name = .ok (b, s') ↔ s.innermost.find? name = none ∧ b = ⟨s.types.size, name⟩ ∧
      s' = { s with types := s.types.push none }.enter b := by
  unfold declare
  cases hf : s.innermost.find? name with
  | some c => simp
  | none =>
    simp only [Option.isSome_none, Bool.false_eq_true, if_false, fresh, Except.ok.injEq,
      Prod.mk.injEq, true_and]
    constructor
    · rintro ⟨rfl, rfl⟩
      exact ⟨rfl, rfl⟩
    · rintro ⟨rfl, rfl⟩
      exact ⟨rfl, rfl⟩

theorem declare_taken {s : Scopes} {name : String} (h : ¬ s.env.IsNew name) :
    s.declare name = .error (.redeclared name) := by
  rw [declare, if_pos]
  rw [Option.isSome_iff_ne_none]
  exact fun hn => h ((s.find?_innermost name).mp hn)

theorem declare_new {s : Scopes} {name : String} (h : s.Bounded) (hn : s.env.IsNew name) :
    ∃ s', s.declare name = .ok (⟨s.types.size, name⟩, s') ∧ s'.types = s.types.push none ∧
      s'.env = s.env.declare ⟨s.types.size, name, none⟩ ∧ s'.Bounded := by
  have hf := (s.find?_innermost name).mpr hn
  have hs : (s.fresh name none).2.symbol ⟨s.types.size, name⟩ = ⟨s.types.size, name, none⟩ := by
    simp [symbol, type?, fresh]
  refine ⟨(s.fresh name none).2.enter ⟨s.types.size, name⟩, ?_, ?_, ?_, ?_⟩
  · rw [declare, if_neg (by simp [hf])]
    rfl
  · obtain ⟨outermost, inner, types⟩ := s
    cases inner <;> rfl
  · rw [env_enter, env_fresh h, hs]
  · exact (h.fresh name none).enter (by simp [fresh])

theorem lookup_env (s : Scopes) (name : String) :
    s.env.lookup name = (s.chain.findSome? (·.find? name)).map s.symbol := by
  unfold env Env.lookup
  rw [List.findSome?_map, List.map_findSome?]
  congr 1
  funext scope
  simp only [Function.comp_apply, List.find?_map]
  rfl

theorem resolve_some {s : Scopes} {name : String} {u : Symbol} (h : s.env.lookup name = some u) :
    ∃ b, s.resolve name = .ok b ∧ s.symbol b = u := by
  rw [lookup_env, Option.map_eq_some_iff] at h
  obtain ⟨b, hb, rfl⟩ := h
  exact ⟨b, by rw [resolve, hb], rfl⟩

theorem resolve_none {s : Scopes} {name : String} (h : s.env.lookup name = none) :
    s.resolve name = .error (.notFound name) := by
  rw [lookup_env, Option.map_eq_none_iff] at h
  rw [resolve, h]

theorem type?_setType (s : Scopes) (b c : Binding) (t : Ty) :
    (s.setType b t).type? c =
      if c.id = b.id ∧ s.type? c = none ∧ c.id < s.types.size then some t else s.type? c := by
  unfold setType
  split
  · rename_i h
    rw [if_neg]
    rintro ⟨hid, hc, -⟩
    simp only [type?, hid] at hc h
    simp [hc] at h
  · rename_i h
    by_cases hid : c.id = b.id
    · have hb : s.type? c = none := by simpa [type?, hid] using h
      by_cases hlt : c.id < s.types.size
      · rw [if_pos ⟨hid, hb, hlt⟩]
        simp [type?, hid, hid ▸ hlt]
      · rw [if_neg (by simp [hlt])]
        simp only [type?]
        rw [Array.getElem?_eq_none (by simpa using hlt), Array.getElem?_eq_none (by omega)]
    · rw [if_neg (by simp [hid])]
      simp only [type?]
      rw [Array.getElem?_setIfInBounds_ne (Ne.symm hid)]

theorem chain_setType (s : Scopes) (b : Binding) (t : Ty) : (s.setType b t).chain = s.chain := by
  unfold setType
  split <;> rfl

theorem env_setType {s : Scopes} (h : s.Bounded) (b : Binding) (t : Ty) :
    (s.setType b t).env = s.env.map (List.map (Symbol.settle b.id t)) := by
  unfold env
  rw [chain_setType, List.map_map]
  refine List.map_congr_left fun scope hscope => ?_
  rw [Function.comp_apply, List.map_map]
  refine List.map_congr_left fun c hc => ?_
  have hlt := h scope hscope c hc
  rw [Function.comp_apply]
  by_cases ht : c.id = b.id ∧ s.type? c = none
  · have hs : (s.symbol c).settle b.id t = ⟨c.id, c.name, some t⟩ := if_pos ht
    rw [hs, symbol, type?_setType, if_pos ⟨ht.1, ht.2, hlt⟩]
  · have hs : (s.symbol c).settle b.id t = s.symbol c := if_neg ht
    rw [hs, symbol, type?_setType, if_neg fun hn => ht ⟨hn.1, hn.2.1⟩, symbol]

theorem Bounded.setType {s : Scopes} (h : s.Bounded) (b : Binding) (t : Ty) :
    (s.setType b t).Bounded := by
  unfold Scopes.setType
  split
  · exact h
  · intro scope hscope c hc
    rw [Array.size_setIfInBounds]
    exact h scope hscope c hc

end Scopes

namespace Draft

/-- The open scopes show the environment. -/
structure Shows (d : Draft) (env : Env) : Prop where
  env_eq : d.scopes.env = env
  bounded : d.scopes.Bounded

variable {d : Draft} {env : Env} {ident : Token} {t : Ty}

theorem troubled_ne_nil (name : String) (trouble : Scopes → Diagnostic) (d : Draft) :
    (d.troubled name trouble).2.diagnostics ≠ [] := by
  simp [troubled, report]

theorem resolve_found {s : Symbol} (hd : d.Shows env) (h : env.lookup ident.lexeme = some s) :
    ∃ b, d.resolve ident = (b, d) ∧ d.symbol b = s := by
  rw [← hd.env_eq] at h
  obtain ⟨b, hb, rfl⟩ := Scopes.resolve_some h
  exact ⟨b, by rw [resolve, hb], rfl⟩

theorem resolve_unknown (hd : d.Shows env) (h : env.lookup ident.lexeme = none) :
    (d.resolve ident).2.diagnostics ≠ [] := by
  rw [← hd.env_eq] at h
  rw [resolve, Scopes.resolve_none h]
  exact troubled_ne_nil _ _ _

theorem declare_taken (hd : d.Shows env) (h : ¬ env.IsNew ident.lexeme) :
    (d.declare ident).2.diagnostics ≠ [] := by
  rw [← hd.env_eq] at h
  rw [declare, Scopes.declare_taken h]
  exact troubled_ne_nil _ _ _

theorem declare_new (hd : d.Shows env) (h : env.IsNew ident.lexeme) :
    ∃ scopes, d.declare ident = (⟨d.scopes.types.size, ident.lexeme⟩, { d with scopes := scopes }) ∧
      scopes.types = d.scopes.types.push none ∧
      scopes.env = env.declare ⟨d.scopes.types.size, ident.lexeme, none⟩ ∧ scopes.Bounded := by
  obtain ⟨he, hb⟩ := hd
  rw [← he] at h ⊢
  obtain ⟨scopes, hs, hrest⟩ := Scopes.declare_new hb h
  exact ⟨scopes, by rw [declare, hs], hrest⟩

def newSymbol (d : Draft) (ident : Token) (t : Ty) : Symbol :=
  ⟨d.scopes.types.size, ident.lexeme, some t⟩

theorem Shows.ne_nil (hd : d.Shows env) : env ≠ [] := hd.env_eq ▸ d.scopes.env_ne_nil

theorem Shows.id_lt (hd : d.Shows env) {scope : List Symbol} {s : Symbol} (hscope : scope ∈ env)
    (hs : s ∈ scope) : s.id < d.scopes.types.size := by
  rw [← hd.env_eq] at hscope
  obtain ⟨bindings, hb, rfl⟩ := List.mem_map.mp hscope
  obtain ⟨b, hb', rfl⟩ := List.mem_map.mp hs
  exact hd.bounded bindings hb b hb'

theorem Shows.symbol_eq (hd : d.Shows env) {scope : List Symbol} {s : Symbol} (hscope : scope ∈ env)
    (hs : s ∈ scope) : d.symbol ⟨s.id, s.name⟩ = s := by
  rw [← hd.env_eq] at hscope
  obtain ⟨bindings, hb, rfl⟩ := List.mem_map.mp hscope
  obtain ⟨b, hb', rfl⟩ := List.mem_map.mp hs
  rfl

theorem Shows.openScope (hd : d.Shows env) : d.openScope.Shows ([] :: env) :=
  ⟨by rw [← hd.env_eq]; rfl, hd.bounded.push⟩

theorem Shows.closeScope {scope : List Symbol} (hd : d.Shows (scope :: env)) (hne : env ≠ []) :
    d.closeScope.Shows env :=
  ⟨Scopes.env_pop hd.env_eq hne, hd.bounded.pop⟩

theorem Shows.setType (inner : Env) {id : Nat} {name : String} (hi : inner.SettledAt id)
    (he : env.SettledAt id) (hd : d.Shows (inner ++ env.declare ⟨id, name, none⟩)) (t : Ty) :
    (d.setType ⟨id, name⟩ t).Shows (inner ++ env.declare ⟨id, name, some t⟩) := by
  refine ⟨?_, hd.bounded.setType _ _⟩
  show (d.scopes.setType ⟨id, name⟩ t).env = _
  rw [Scopes.env_setType hd.bounded, hd.env_eq, List.map_append, hi.settle, he.settle_declare]

end Draft

end Crux
