import Crux.Proofs.Grammar.Outcome
import Crux.Proofs.Node.Outline
import Crux.Proofs.Scope.Environment
import Crux.Proofs.Token.Respaced

namespace Crux

theorem Cursor.oneLine_of_mem {source : String} {t : Token}
    (ht : t ∈ (ofString source).tokens) : OneLine t.lexeme := by
  obtain ⟨pos, e⟩ := tokens_eq_proper source
  rw [e, List.mem_append, List.mem_singleton] at ht
  obtain ht | rfl := ht
  · obtain ⟨hm, hk⟩ := List.mem_filter.mp ht
    exact (reads_of_mem hm (of_decide_eq_true hk)).blank_not_mem (by decide)
  · exact List.not_mem_nil

theorem Position.oneLine_render (pos : Position) : OneLine pos.render := by
  simp only [render, oneLine_append]
  exact ⟨⟨oneLine_repr _, by decide⟩, oneLine_repr _⟩

namespace Ty

theorem oneLine_error {message : String} (h : OneLine message) :
    OneLine (error message).render := .between (by decide) (by decide) h

theorem oneLine_ofName {name : String} (h : OneLine name) : OneLine (ofName name).render := by
  unfold ofName
  split
  · decide
  split
  · decide
  split
  · decide
  split
  · decide
  · exact oneLine_error (.between (by decide) (by decide) h)

theorem oneLine_arrayOf {t : Token} {element : Ty} (ht : OneLine t.lexeme)
    (h : OneLine element.render) : OneLine (Parse.arrayOf t element).render := by
  simp only [Parse.arrayOf]
  split
  · simp only [render, oneLine_append]
    exact ⟨⟨⟨⟨by decide, oneLine_repr _⟩, by decide⟩, h⟩, by decide⟩
  · exact oneLine_error (.between (by decide) (by decide) ht)

theorem renderAll_eq_map (ts : List Ty) : renderAll ts = ts.map render := by
  induction ts with
  | nil => simp [renderAll]
  | cons t ts ih => simp [renderAll, ih]

theorem oneLine_func {params : List Ty} {result : Ty} (hp : ∀ t ∈ params, OneLine t.render)
    (hr : OneLine result.render) : OneLine (func params result).render := by
  have hparams : OneLine (", ".intercalate (renderAll params)) := by
    rw [renderAll_eq_map]
    exact .intercalate (by decide) (List.forall_mem_map.mpr hp)
  simp only [render, oneLine_append]
  exact ⟨⟨by decide, hparams⟩, by decide, hr⟩

end Ty

structure Symbol.Legible (s : Symbol) : Prop where
  name : OneLine s.name
  type : ∀ t ∈ s.type?, OneLine t.render

namespace Symbol.Legible

variable {s : Symbol}

theorem render (h : s.Legible) : OneLine s.render := by
  unfold Symbol.render
  split
  · rename_i t ht
    simp only [oneLine_append]
    exact ⟨⟨⟨⟨by decide, h.name⟩, by decide⟩, h.type t ht⟩, by decide⟩
  · exact .between (by decide) (by decide) h.name

theorem ty (h : s.Legible) : OneLine s.ty.render := by
  unfold Symbol.ty
  cases ht : s.type? with
  | none => exact Ty.oneLine_error (.between (by decide) (by decide) h.name)
  | some t => exact h.type t ht

end Symbol.Legible

namespace Node

theorem oneLine_detail {n : Node} (hn : n.isError = false) (hs : ∀ s ∈ n.symbols, s.Legible) :
    ∀ text ∈ n.detail?, OneLine text := by
  cases n with
  | error => cases hn
  | int _ value =>
    rintro text ⟨⟩
    exact (tidy_repr _).oneLine
  | float _ value =>
    rintro text ⟨⟩
    exact value.tidy_render.oneLine
  | bool _ value =>
    rintro text ⟨⟩
    cases value <;> decide
  | compare _ op =>
    rintro text ⟨⟩
    cases op <;> decide
  | addressOf _ s | var _ s | array _ s | call _ s =>
    rintro text ⟨⟩
    exact (hs s List.mem_cons_self).render
  | function _ s params =>
    obtain ⟨hs, hparams⟩ := List.forall_mem_cons.mp hs
    have hlist : OneLine (", ".intercalate (params.map Symbol.render)) :=
      .intercalate (by decide) (List.forall_mem_map.mpr fun s h => (hparams s h).render)
    rintro text ⟨⟩
    simp only [oneLine_append]
    exact ⟨⟨⟨hs.render, by decide⟩, hlist⟩, by decide⟩
  | _ => rintro text ⟨⟩

theorem legible_error (tag : Tag) {message : String} (h : OneLine message) :
    (error tag message).Legible := by
  refine forall_leaf rfl ?_
  rintro text ⟨⟩
  exact h

theorem legible_literal {t : Token} (tag : Tag) (h : OneLine t.lexeme) :
    (Parse.literalNode t tag).Legible := by
  have hvalue {n : Node} (hn : n.isError = false) (hs : n.symbols = []) (hc : n.children = []) :
      n.Legible := forall_leaf hc (oneLine_detail hn (hs ▸ List.forall_mem_nil _))
  unfold Parse.literalNode
  split
  · dsimp only
    split
    · exact hvalue rfl rfl rfl
    · exact legible_error tag (.between (by decide) (by decide) h)
  · split
    · exact hvalue rfl rfl rfl
    · exact legible_error tag (.between (by decide) (by decide) h)
  · exact hvalue rfl rfl rfl
  · exact hvalue rfl rfl rfl

end Node

namespace Scopes

structure Legible (s : Scopes) : Prop where
  names : ∀ b ∈ s.chain.flatten, OneLine b.name
  types : ∀ type? ∈ s.types, ∀ t ∈ type?, OneLine t.render

namespace Legible

variable {s : Scopes} {b : Binding} {name : String} {t : Ty}

theorem symbol (h : s.Legible) (hb : OneLine b.name) : (s.symbol b).Legible :=
  ⟨hb, fun t ht => h.types _ (Array.mem_of_getElem? (Option.join_eq_some_iff.mp ht)) t rfl⟩

theorem fresh (h : s.Legible) (name : String) {type? : Option Ty}
    (ht : ∀ t ∈ type?, OneLine t.render) : (s.fresh name type?).2.Legible := by
  refine ⟨h.names, fun o ho => ?_⟩
  obtain ho | rfl := Array.mem_push.mp ho
  · exact h.types o ho
  · exact ht

theorem enter (h : s.Legible) (hb : OneLine b.name) : (s.enter b).Legible := by
  refine ⟨?_, by rw [types_enter]; exact h.types⟩
  rw [chain_enter, List.flatten_cons, List.append_assoc]
  intro u hu
  obtain hu | hu := List.mem_append.mp hu
  · exact h.names u (List.mem_flatten.mpr ⟨_, s.innermost_mem_chain, hu⟩)
  · obtain rfl | hu := List.mem_cons.mp hu
    · exact hb
    · obtain ⟨scope, hs, hu⟩ := List.mem_flatten.mp hu
      exact h.names u (List.mem_flatten.mpr ⟨scope, List.mem_of_mem_tail hs, hu⟩)

theorem push (h : s.Legible) : s.push.Legible := ⟨h.names, h.types⟩

theorem pop (h : s.Legible) : s.pop.Legible := by
  refine ⟨fun b hb => h.names b ?_, h.types⟩
  obtain ⟨scope, hs, hb⟩ := List.mem_flatten.mp hb
  refine List.mem_flatten.mpr ⟨scope, ?_, hb⟩
  exact ((List.tail_sublist _).append_right _).subset hs

theorem setType (h : s.Legible) (b : Binding) (ht : OneLine t.render) :
    (s.setType b t).Legible := by
  unfold Scopes.setType
  split
  · exact h
  · refine ⟨h.names, fun o ho => ?_⟩
    obtain ho | rfl := Array.mem_or_eq_of_mem_setIfInBounds ho
    · exact h.types o ho
    · rintro t ⟨⟩
      exact ht

theorem declareAs (h : s.Legible) (hn : OneLine name) (ht : OneLine t.render) :
    (s.declareAs name t).Legible := by
  unfold Scopes.declareAs
  split
  · rename_i hd
    obtain ⟨-, rfl, rfl⟩ := declare_eq_ok_iff.mp hd
    exact ((h.fresh name (by rintro t ⟨⟩)).enter hn).setType _ ht
  · exact h

end Legible

theorem legible_withBuiltins : withBuiltins.Legible := by
  have hall : ∀ b ∈ Builtin.all, OneLine b.name ∧ OneLine b.ty.render := by decide +kernel
  refine List.foldlRecOn _ _ ⟨by decide, by simp [empty]⟩ fun s hs b hb => ?_
  exact hs.declareAs (hall b hb).1 (hall b hb).2

end Scopes

namespace Diagnostic

variable {pos : Position} {name : String} {s : Scopes}

theorem oneLine_redeclared (h : OneLine name) : OneLine (redeclared pos name s).headline := by
  show OneLine (_ ++ _ ++ _ ++ _ ++ _)
  simp only [oneLine_append]
  exact ⟨⟨⟨⟨by decide, pos.oneLine_render⟩, by decide⟩, h⟩, by decide⟩

theorem oneLine_unresolved (h : OneLine name) : OneLine (unresolved pos name s).headline := by
  have hmessage : OneLine (ScopeError.notFound name).message :=
    .between (by decide) (by decide) h
  show OneLine (_ ++ _ ++ _ ++ _ ++ _)
  simp only [oneLine_append]
  exact ⟨⟨⟨⟨by decide, pos.oneLine_render⟩, by decide⟩, hmessage⟩, by decide⟩

end Diagnostic

namespace Draft

variable {d : Draft}

theorem legible_troubled (h : d.scopes.Legible) {name : String} {trouble : Scopes → Diagnostic}
    (hname : OneLine name) (ht : ∀ s, OneLine (trouble s).headline) :
    OneLine (d.troubled name trouble).1.name ∧ (d.troubled name trouble).2.scopes.Legible := by
  refine ⟨hname, h.fresh name ?_⟩
  rintro t ⟨⟩
  exact Ty.oneLine_error (ht _)

theorem legible_declare (h : d.scopes.Legible) {ident : Token} (hi : OneLine ident.lexeme) :
    OneLine (d.declare ident).1.name ∧ (d.declare ident).2.scopes.Legible := by
  obtain ⟨b, hb, e⟩ | e := d.declare_cases ident
  · rw [e]
    have hb : OneLine b.name := hb ▸ hi
    exact ⟨hb, (h.fresh _ (by rintro t ⟨⟩)).enter hb⟩
  · rw [e]
    exact legible_troubled h hi fun s => Diagnostic.oneLine_redeclared hi

theorem legible_resolve (h : d.scopes.Legible) {ident : Token} (hi : OneLine ident.lexeme) :
    OneLine (d.resolve ident).1.name ∧ (d.resolve ident).2.scopes.Legible := by
  obtain ⟨scope, hs, b, hb, e⟩ | e := d.resolve_cases ident
  · rw [e]
    exact ⟨h.names b (List.mem_flatten.mpr ⟨scope, hs, hb⟩), h⟩
  · rw [e]
    exact legible_troubled h hi fun s => Diagnostic.oneLine_unresolved hi

end Draft

def Parse.Invariant.legible : Parse.Invariant where
  stream ts := ∀ t ∈ ts, OneLine t.lexeme
  draft _ d := d.scopes.Legible
  broken _ _ p := (∀ t ∈ p.tokens, OneLine t.lexeme) ∧ p.scopes.Legible
  token t := OneLine t.lexeme
  binding b := OneLine b.name
  ty t := OneLine t.render
  symbol := Symbol.Legible
  node := Node.Legible
  front h := h _ List.mem_cons_self
  next h := (List.forall_mem_cons.mp h).2
  numbers h := h
  opens h := h.push
  closes h := h.pop
  declares ht h := Draft.legible_declare h ht
  resolves ht h := Draft.legible_resolve h ht
  setsType ht h := h.setType _ ht
  symbolOf hb h := h.symbol hb
  breaks _ hs hd := ⟨hs, hd⟩
  leaves h := h
  typeName h := Ty.oneLine_ofName h
  arrayOf ht h := Ty.oneLine_arrayOf ht h
  func hp hr := Ty.oneLine_func (List.forall_mem_map.mpr fun s h => (hp s h).ty) hr
  literal tag h := Node.legible_literal tag h
  tree hn hs hc := Node.forall_preorder (Node.oneLine_detail hn hs) hc

namespace Parser

open Parse (Invariant)

theorem parse_legible {p : Parser} (h : Invariant.legible.Holds 0 p) :
    p.parse.1.Legible ∧ Invariant.legible.Holds 0 p.parse.2 := by
  cases hrun : Parse.program p with
  | done root q =>
    rw [parse_of_done hrun]
    exact Invariant.program_keeps.done h hrun
  | stuck pos q =>
    have hbroken := Invariant.program_keeps.stuck h hrun
    rw [parse_of_stuck hrun]
    exact ⟨Node.legible_error _ (by decide), hbroken⟩

theorem afterReadings_legible (source : String) (k : Nat) :
    Invariant.legible.Holds 0 (afterReadings source k) := by
  induction k with
  | zero =>
    refine ⟨fun t ht => ?_, Scopes.legible_withBuiltins⟩
    rw [afterReadings, tokens_ofString] at ht
    exact Cursor.oneLine_of_mem ht
  | succ k ih => exact (parse_legible ih).2

/-- The outline of a tree that has been read, at whatever reading, tells the tree: another such tree
has the same outline exactly if it has the same shape and the same is shown of its nodes. The
outline has one line for each node, parents before their children and children in their order, and
twice as many blanks in front as there are nodes above. -/
theorem parse_outline_tells (source source' : String) (k k' : Nat) :
    ((afterReadings source k).parse.1.outline = (afterReadings source' k').parse.1.outline ↔
      (afterReadings source k).parse.1.Alike (afterReadings source' k').parse.1) ∧
    ∃ paths lines,
      (afterReadings source k).parse.1.outline.toList.splitOn '\n' = lines ++ [[]] ∧
        (afterReadings source k).parse.1.LinesUp paths lines := by
  have h := (parse_legible (afterReadings_legible source k)).1
  have h' := (parse_legible (afterReadings_legible source' k')).1
  exact ⟨Node.outline_eq_iff h h', Node.outline_linesUp h⟩

end Parser

end Crux
