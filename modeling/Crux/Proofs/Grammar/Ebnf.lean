import Crux.Grammar.Nonterminal

namespace Crux

inductive Ebnf
  | token : Kind → Ebnf
  | rule : Nonterminal → Ebnf
  | sequence : List Ebnf → Ebnf
  | choice : List Ebnf → Ebnf
  /-- `[ e ]` -/
  | option : Ebnf → Ebnf
  /-- `{ e }` -/
  | repeated : Ebnf → Ebnf

instance : Coe Kind Ebnf := ⟨.token⟩

instance : Coe Nonterminal Ebnf := ⟨.rule⟩

def Ebnf.commaList (item : Ebnf) : Ebnf :=
  .option (.sequence [item, .repeated (.sequence [Kind.comma, item])])

def Ebnf.extent : Ebnf := .sequence [Kind.openBracket, Kind.integer, Kind.closeBracket]

open Ebnf in
def Nonterminal.production : Nonterminal → Ebnf
  | .program => sequence [Nonterminal.declarationList, Kind.eof]
  | .declarationList => repeated Nonterminal.declaration
  | .declaration =>
    choice [Nonterminal.variableDeclaration, Nonterminal.arrayDeclaration,
      Nonterminal.functionDefinition]
  | .variableDeclaration =>
    sequence [Kind.kwVar, Kind.identifier, Kind.colon, Nonterminal.typeName, Kind.semicolon]
  | .arrayDeclaration =>
    sequence [Kind.kwArray, Kind.identifier, Kind.colon, Nonterminal.typeName, extent,
      repeated extent, Kind.semicolon]
  | .functionDefinition =>
    sequence [Kind.kwFunc, Kind.identifier, Kind.openParen, Nonterminal.parameterList,
      Kind.closeParen, Kind.colon, Nonterminal.typeName, Nonterminal.statementBlock]
  | .parameterList => commaList Nonterminal.parameter
  | .parameter => sequence [Kind.identifier, Kind.colon, Nonterminal.typeName]
  | .typeName => Kind.identifier
  | .statementBlock => sequence [Kind.openBrace, Nonterminal.statementList, Kind.closeBrace]
  | .statementList => repeated Nonterminal.statement
  | .statement =>
    choice [Nonterminal.variableDeclaration, Nonterminal.arrayDeclaration,
      Nonterminal.callStatement, Nonterminal.assignmentStatement, Nonterminal.ifStatement,
      Nonterminal.whileStatement, Nonterminal.returnStatement]
  | .assignmentStatement =>
    sequence [Kind.kwLet, Nonterminal.designator, Kind.assign, Nonterminal.expression0,
      Kind.semicolon]
  | .callStatement => sequence [Nonterminal.callExpression, Kind.semicolon]
  | .ifStatement =>
    sequence [Kind.kwIf, Nonterminal.expression0, Nonterminal.statementBlock,
      option (sequence [Kind.kwElse, Nonterminal.statementBlock])]
  | .whileStatement =>
    sequence [Kind.kwWhile, Nonterminal.expression0, Nonterminal.statementBlock]
  | .returnStatement => sequence [Kind.kwReturn, option Nonterminal.expression0, Kind.semicolon]
  | .designator =>
    sequence [Kind.identifier,
      repeated (sequence [Kind.openBracket, Nonterminal.expression0, Kind.closeBracket])]
  | .callExpression =>
    sequence [Kind.call, Kind.identifier, Kind.openParen, Nonterminal.expressionList,
      Kind.closeParen]
  | .expressionList => commaList Nonterminal.expression0
  | .expression0 =>
    sequence [Nonterminal.expression1, option (sequence [Nonterminal.op0, Nonterminal.expression1])]
  | .expression1 =>
    sequence [Nonterminal.expression2,
      repeated (sequence [Nonterminal.op1, Nonterminal.expression2])]
  | .expression2 =>
    sequence [Nonterminal.expression3,
      repeated (sequence [Nonterminal.op2, Nonterminal.expression3])]
  | .expression3 =>
    choice [sequence [Kind.kwNot, Nonterminal.expression3],
      sequence [Kind.openParen, Nonterminal.expression0, Kind.closeParen], Nonterminal.designator,
      Nonterminal.callExpression, Nonterminal.literal]
  | .op0 =>
    choice [Kind.greaterEqual, Kind.lesserEqual, Kind.notEqual, Kind.equal, Kind.greaterThan,
      Kind.lessThan]
  | .op1 => choice [Kind.add, Kind.sub, Kind.kwOr]
  | .op2 => choice [Kind.mul, Kind.div, Kind.kwAnd]
  | .literal => choice [Kind.integer, Kind.float, Kind.kwTrue, Kind.kwFalse]

namespace Ebnf

inductive Derives : Ebnf → List Kind → Prop
  | token : Derives (.token k) [k]
  | rule : Derives n.production w → Derives (.rule n) w
  | nil : Derives (.sequence []) []
  | cons : Derives e v → Derives (.sequence es) w → Derives (.sequence (e :: es)) (v ++ w)
  | choice : e ∈ es → Derives e w → Derives (.choice es) w
  | absent : Derives (.option e) []
  | present : Derives e w → Derives (.option e) w
  | done : Derives (.repeated e) []
  | more : Derives e v → Derives (.repeated e) w → Derives (.repeated e) (v ++ w)

class Productive (e : Ebnf) : Prop where
  derives : ∃ w, e.Derives w

namespace Productive

instance (k : Kind) : Productive (.token k) := ⟨_, .token⟩

instance : Productive (.sequence []) := ⟨_, .nil⟩

instance (e : Ebnf) (es : List Ebnf) [he : Productive e] [hes : Productive (.sequence es)] :
    Productive (.sequence (e :: es)) := by
  obtain ⟨v, hv⟩ := he.derives
  obtain ⟨w, hw⟩ := hes.derives
  exact ⟨_, .cons hv hw⟩

instance (e : Ebnf) : Productive (.option e) := ⟨_, .absent⟩

instance (e : Ebnf) : Productive (.repeated e) := ⟨_, .done⟩

instance (e : Ebnf) : Productive (.commaList e) := ⟨_, .absent⟩

instance : Productive .extent := by
  unfold extent
  infer_instance

theorem choice {e : Ebnf} {es : List Ebnf} [he : Productive e] (h : e ∈ es) :
    Productive (.choice es) := by
  obtain ⟨w, hw⟩ := he.derives
  exact ⟨w, .choice h hw⟩

instance (e : Ebnf) (es : List Ebnf) [Productive e] : Productive (.choice (e :: es)) :=
  .choice (.head es)

theorem rule {n : Nonterminal} (h : Productive n.production) : Productive (.rule n) := by
  obtain ⟨w, hw⟩ := h.derives
  exact ⟨w, .rule hw⟩

-- A literal is the way out of the recursion through expressions, and empty rows are the way out of
-- those through statements and declarations.
instance (n : Nonterminal) : Productive (.rule n) := by
  have : Productive (.rule .typeName) := .rule (by unfold Nonterminal.production; infer_instance)
  have : Productive (.rule .literal) := .rule (by unfold Nonterminal.production; infer_instance)
  have : Productive (.rule .expression3) := .rule (.choice (e := .rule .literal) (by simp))
  have : Productive (.rule .expression2) := .rule (by unfold Nonterminal.production; infer_instance)
  have : Productive (.rule .expression1) := .rule (by unfold Nonterminal.production; infer_instance)
  have : Productive (.rule .expression0) := .rule (by unfold Nonterminal.production; infer_instance)
  have : Productive (.rule .expressionList) :=
    .rule (by unfold Nonterminal.production; infer_instance)
  have : Productive (.rule .callExpression) :=
    .rule (by unfold Nonterminal.production; infer_instance)
  have : Productive (.rule .designator) := .rule (by unfold Nonterminal.production; infer_instance)
  have : Productive (.rule .statementList) :=
    .rule (by unfold Nonterminal.production; infer_instance)
  have : Productive (.rule .statementBlock) :=
    .rule (by unfold Nonterminal.production; infer_instance)
  have : Productive (.rule .variableDeclaration) :=
    .rule (by unfold Nonterminal.production; infer_instance)
  have : Productive (.rule .parameterList) :=
    .rule (by unfold Nonterminal.production; infer_instance)
  have : Productive (.rule .declarationList) :=
    .rule (by unfold Nonterminal.production; infer_instance)
  cases n <;> exact .rule (by unfold Nonterminal.production; infer_instance)

instance (n : Nonterminal) : Productive n.production := by
  obtain ⟨w, h⟩ := derives (e := .rule n)
  cases h with | rule h => exact ⟨w, h⟩

end Productive

mutual

def isInner : Ebnf → Bool
  | .token k => k != .eof
  | .rule n => n != .program
  | .sequence es | .choice es => areInner es
  | .option e | .repeated e => e.isInner

def areInner : List Ebnf → Bool
  | [] => true
  | e :: es => e.isInner && areInner es

end

theorem isInner_of_mem {e : Ebnf} {es : List Ebnf} (h : areInner es) (he : e ∈ es) : e.isInner := by
  induction he with
  | head es =>
    rw [areInner, Bool.and_eq_true] at h
    exact h.1
  | tail e' _ ih =>
    rw [areInner, Bool.and_eq_true] at h
    exact ih h.2

theorem isInner_production {n : Nonterminal} (h : n ≠ .program) : n.production.isInner := by
  cases n <;> first | rfl | exact absurd rfl h

theorem Derives.eof_not_mem {e : Ebnf} {w : List Kind} (h : e.Derives w) (he : e.isInner) :
    Kind.eof ∉ w := by
  induction h with
  | @token k =>
    have hk : k ≠ .eof := by simpa [isInner] using he
    simpa using hk.symm
  | rule _ ih => exact ih (isInner_production (by simpa [isInner] using he))
  | nil | absent | done => simp
  | cons _ _ ihv ihw =>
    rw [isInner, areInner, Bool.and_eq_true] at he
    simpa using ⟨ihv he.1, ihw he.2⟩
  | choice hm _ ih => exact ih (isInner_of_mem he hm)
  | present _ ih => exact ih he
  | more _ _ ihv ihw => simpa using ⟨ihv he, ihw he⟩

theorem Derives.sentence_eq {w : List Kind} (h : (Ebnf.rule .program).Derives w) :
    ∃ v, w = v ++ [.eof] ∧ .eof ∉ v := by
  cases h with | rule h =>
  cases h with | cons hd h =>
  cases h with | cons he h =>
  cases he
  cases h
  exact ⟨_, rfl, hd.eof_not_mem rfl⟩

theorem Derives.eof_iff {v w : List Kind} {k : Kind}
    (h : (Ebnf.rule .program).Derives (v ++ k :: w)) : k = .eof ↔ w = [] := by
  obtain ⟨u, e, hu⟩ := h.sentence_eq
  constructor
  · rintro rfl
    rcases List.eq_nil_or_concat w with rfl | ⟨w', l, rfl⟩
    · rfl
    · rw [List.concat_eq_append, ← List.cons_append, ← List.append_assoc] at e
      rw [← (List.append_inj' e rfl).1] at hu
      exact absurd (by simp) hu
  · rintro rfl
    simpa using (List.append_inj' e rfl).2

end Ebnf

end Crux
