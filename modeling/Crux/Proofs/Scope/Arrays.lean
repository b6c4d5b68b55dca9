import Crux.Proofs.Scope.Accepted
import Mathlib.Data.List.Forall2

namespace Crux

namespace ArrayPhrase

def extents (a : ArrayPhrase) : List Nat :=
  (a.first :: a.rest).map fun e => Text.digitsValue e.size.val.lexeme.toList

def element (a : ArrayPhrase) : Ty := .ofName a.type.val.lexeme

/-- The node declares the array that the text declares. -/
def Makes (a : ArrayPhrase) (n : Node) : Prop :=
  ∃ g s, n = .array g s ∧ g.pos = a.start.val.pos ∧ s.name = a.ident.val.lexeme ∧
    s.type? = some a.ty

end ArrayPhrase

theorem Parse.foldr_arrayOf {ts : List Token} {base : Ty} (hb : base.innermost = base)
    (h : (ts.foldr arrayOf base).innermost.isScalar) :
    ts.foldr arrayOf base =
      (ts.map fun t => Text.digitsValue t.lexeme.toList).foldr .array base ∧ base.isScalar := by
  induction ts with
  | nil => exact ⟨rfl, hb ▸ h⟩
  | cons t ts ih =>
    rw [List.foldr_cons, arrayOf] at h ⊢
    split at h
    · rename_i hn
      obtain ⟨htail, hbase⟩ := ih h
      rw [if_pos hn, htail]
      exact ⟨rfl, hbase⟩
    · cases h

theorem ArrayPhrase.ty_eq {a : ArrayPhrase} (h : a.ty.innermost.isScalar) :
    a.ty = a.extents.foldr .array a.element ∧ a.element.isScalar := by
  have hbase : a.element.innermost = a.element := by
    unfold element Ty.ofName
    split_ifs <;> rfl
  obtain ⟨hty, helement⟩ := Parse.foldr_arrayOf hbase h
  rw [List.map_map] at hty
  exact ⟨hty, helement⟩

namespace Node

def isArray : Node → Bool
  | .array .. => true
  | _ => false

def arrays (n : Node) : List Node := n.preorder.filter isArray

theorem arrays_eq (n : Node) : n.arrays = [n].filter isArray ++ n.children.flatMap arrays := by
  rw [arrays, preorder_eq, ← List.singleton_append, List.filter_append, List.filter_flatMap]
  rfl

theorem arrays_eq_nil {n : Node} (h : n.symbolIds = []) : n.arrays = [] := by
  have hd : ∀ m ∈ n.preorder, m.declares = [] :=
    List.flatMap_eq_nil_iff.mp (List.map_eq_nil_iff.mp h)
  refine List.filter_eq_nil_iff.mpr fun m hm ha => ?_
  cases m with
  | array g s => cases hd _ hm
  | _ => cases ha

end Node

theorem Draft.declareAs_symbol {d : Draft} {ident : Token} {t : Ty}
    (hq : (d.declareAs ident t).2.diagnostics = []) :
    (d.declareAs ident t).1.name = ident.lexeme ∧ (d.declareAs ident t).1.type? = some t := by
  have hq : (d.declare ident).2.diagnostics = [] := hq
  rw [declareAs]
  cases hdecl : d.scopes.declare ident.lexeme with
  | error e =>
    rw [declare, hdecl] at hq
    exact absurd hq (troubled_ne_nil _ _ d)
  | ok r =>
    obtain ⟨b, scopes⟩ := r
    obtain ⟨-, rfl, hs⟩ := Scopes.declare_eq_ok_iff.mp hdecl
    have htypes : scopes.types = d.scopes.types.push none := by rw [hs, Scopes.types_enter]
    have hnone : scopes.type? ⟨d.scopes.types.size, ident.lexeme⟩ = none := by
      simp [Scopes.type?, htypes]
    simp [declare, hdecl, symbol, setType, Scopes.symbol, Scopes.type?_setType, hnone, htypes]

namespace StatementPhrase

def arrays {f : StatementForm} : StatementPhrase f → List ArrayPhrase
  | .array a => [a]
  | .branch _ _ yes => yes.arrays
  | .branchElse _ _ yes _ no => yes.arrays ++ no.arrays
  | .loop _ _ body => body.arrays
  | .block _ items _ => items.arrays
  | .next first rest => first.arrays ++ rest.arrays
  | .var _ | .call .. | .assign .. | .leave .. | .leaveWith .. | .none => []

end StatementPhrase

def DeclarationPhrase.arrays : DeclarationPhrase → List ArrayPhrase
  | .var _ => []
  | .array a => [a]
  | .function f => f.body.arrays

def ProgramPhrase.arrays (p : ProgramPhrase) : List ArrayPhrase :=
  p.items.flatMap DeclarationPhrase.arrays

theorem ArrayPhrase.build_arrays (a : ArrayPhrase) {d : Draft}
    (hq : (a.build d).2.diagnostics = []) : List.Forall₂ Makes [a] (a.build d).1.arrays := by
  obtain ⟨hname, htype⟩ := Draft.declareAs_symbol (t := a.ty) hq
  have harrays : (a.build d).1.arrays = [(a.build d).1] := Node.arrays_eq _
  rw [harrays]
  exact .cons ⟨_, _, rfl, rfl, hname, htype⟩ .nil

theorem ArrayPhrase.makes_node {as : List ArrayPhrase} {n : Node} {ns : List Node}
    (hn : n.isArray = false) (hc : n.children = ns)
    (h : List.Forall₂ Makes as (ns.flatMap Node.arrays)) : List.Forall₂ Makes as n.arrays := by
  rwa [Node.arrays_eq, hc, List.filter_cons_of_neg (by simp [hn])]

theorem StatementPhrase.build_arrays {f : StatementForm} (s : StatementPhrase f) {after : Position}
    {d : Draft} (hq : (s.build after d).2.diagnostics = []) :
    List.Forall₂ ArrayPhrase.Makes s.arrays (f.gather Node.arrays (s.build after d).1) := by
  -- Expressions declare nothing, so only the blocks of a statement count.
  induction s generalizing after d with
  | var v => exact .nil
  | array a => exact a.build_arrays hq
  | call c stop =>
    have hc : (c.build d).1.arrays = [] := Node.arrays_eq_nil (c.build_made d).2
    exact List.forall₂_nil_left_iff.mpr hc
  | assign start target mark source stop =>
    have ht := Node.arrays_eq_nil (target.build_made d).2
    have hs := Node.arrays_eq_nil (source.build_made (target.build d).2).2
    exact ArrayPhrase.makes_node rfl rfl
      (by simp [build, Draft.node, Node.children, arrays, ht, hs])
  | branch start condition yes ih =>
    have hc := Node.arrays_eq_nil (condition.build_made d).2
    have hn (g : Tag) : Node.arrays (.list g .statements []) = [] := Node.arrays_eq _
    exact ArrayPhrase.makes_node rfl rfl
      (by simpa [build, Draft.node, Node.children, StatementForm.gather, arrays, hc, hn]
        using ih hq)
  | branchElse start condition yes mark no ihy ihn =>
    have hqy := ((Draft.closeScope_keeps _).trans
      ((Draft.openScope_keeps _).trans (no.build_keeps after _))).quiet hq
    have hc := Node.arrays_eq_nil (condition.build_made d).2
    have hblocks := List.rel_append (ihy hqy) (ihn hq)
    exact ArrayPhrase.makes_node rfl rfl
      (by simpa [build, Draft.node, Node.children, StatementForm.gather, arrays, hc] using hblocks)
  | loop start condition body ih =>
    have hc := Node.arrays_eq_nil (condition.build_made d).2
    exact ArrayPhrase.makes_node rfl rfl
      (by simpa [build, Draft.node, Node.children, StatementForm.gather, arrays, hc] using ih hq)
  | leave start stop => exact .nil
  | leaveWith start result stop =>
    have hr := Node.arrays_eq_nil (result.build_made d).2
    exact ArrayPhrase.makes_node rfl rfl (by simp [build, Draft.node, Node.children, arrays, hr])
  | block left items right ih => exact ArrayPhrase.makes_node rfl rfl (ih hq)
  | none => exact .nil
  | next first rest ihf ihr =>
    exact List.rel_append (ihf ((rest.build_keeps _ _).quiet hq)) (ihr hq)

theorem DeclarationPhrase.build_arrays (x : DeclarationPhrase) {d : Draft}
    (hq : (x.build d).2.diagnostics = []) :
    List.Forall₂ ArrayPhrase.Makes x.arrays (x.build d).1.arrays := by
  cases x with
  | var v => exact .nil
  | array a => exact a.build_arrays hq
  | function f =>
    have hbody := f.body.build_arrays hq
    rw [← List.append_nil (StatementForm.gather ..)] at hbody
    exact ArrayPhrase.makes_node rfl rfl hbody

theorem ProgramPhrase.build_arrays (p : ProgramPhrase) {d : Draft}
    (hq : (p.build d).2.diagnostics = []) :
    List.Forall₂ ArrayPhrase.Makes p.arrays (p.build d).1.arrays := by
  have h (l : List DeclarationPhrase) (d : Draft)
      (hq : (Draft.forEach DeclarationPhrase.build l d).2.diagnostics = []) :
      List.Forall₂ ArrayPhrase.Makes (l.flatMap DeclarationPhrase.arrays)
        ((Draft.forEach DeclarationPhrase.build l d).1.flatMap Node.arrays) := by
    induction l generalizing d with
    | nil => exact .nil
    | cons x l ih =>
      have hx := (Draft.forEach_keeps DeclarationPhrase.build_keeps l _).quiet hq
      exact List.rel_append (x.build_arrays hx) (ih _ hq)
  exact ArrayPhrase.makes_node rfl rfl (h p.items d hq)

theorem Parser.parse_arrays {source : String} {ph : ProgramPhrase}
    (htext : (Cursor.ofString source).tokens = ph.tokens)
    (hq : (ofString source).parse.2.diagnostics = []) :
    List.Forall₂ ArrayPhrase.Makes ph.arrays (ofString source).parse.1.arrays := by
  rw [ofString, htext, parse_ofTokens] at hq ⊢
  exact ph.build_arrays hq

end Crux
