import Crux.Proofs.Grammar.Ebnf
import Crux.Proofs.Phrase.Program

namespace Crux

namespace Ebnf

/-- The tokens that a right-hand side stands for, given those of the nonterminals. -/
inductive Spells (N : Nonterminal → List Token → Prop) : Ebnf → List Token → Prop
  | token : t.kind = k → Spells N (.token k) [t]
  | rule : N n ts → Spells N (.rule n) ts
  | nil : Spells N (.sequence []) []
  | cons : Spells N e ts → Spells N (.sequence es) us → Spells N (.sequence (e :: es)) (ts ++ us)
  | choice : e ∈ es → Spells N e ts → Spells N (.choice es) ts
  | absent : Spells N (.option e) []
  | present : Spells N e ts → Spells N (.option e) ts
  | done : Spells N (.repeated e) []
  | more : Spells N e ts → Spells N (.repeated e) us → Spells N (.repeated e) (ts ++ us)

variable {N : Nonterminal → List Token → Prop}

/-- A family of token lists that is closed under the productions holds all that is derived. -/
theorem Derives.spells (closed : ∀ {n ts}, Spells N n.production ts → N n ts) {e : Ebnf}
    {w : List Kind} (h : e.Derives w) :
    ∀ {ts : List Token}, ts.map Token.kind = w → Spells N e ts := by
  induction h with
  | token =>
    intro ts h
    obtain ⟨t, rfl, rfl⟩ := List.map_eq_singleton_iff.mp h
    exact .token rfl
  | rule _ ih =>
    intro ts h
    exact .rule (closed (ih h))
  | nil =>
    intro ts h
    rw [List.map_eq_nil_iff.mp h]
    exact .nil
  | cons _ _ ih₁ ih₂ =>
    intro ts h
    obtain ⟨us, vs, rfl, hu, hv⟩ := List.map_eq_append_iff.mp h
    exact .cons (ih₁ hu) (ih₂ hv)
  | choice hmem _ ih =>
    intro ts h
    exact .choice hmem (ih h)
  | absent =>
    intro ts h
    rw [List.map_eq_nil_iff.mp h]
    exact .absent
  | present _ ih =>
    intro ts h
    exact .present (ih h)
  | done =>
    intro ts h
    rw [List.map_eq_nil_iff.mp h]
    exact .done
  | more _ _ ih₁ ih₂ =>
    intro ts h
    obtain ⟨us, vs, rfl, hu, hv⟩ := List.map_eq_append_iff.mp h
    exact .more (ih₁ hu) (ih₂ hv)

section Forall

variable {Q : List Token → Prop}

theorem forall_token {k : Kind} :
    (∀ ts, Spells N (.token k) ts → Q ts) ↔ ∀ t : TokenOf k, Q [t.val] := by
  constructor
  · rintro h ⟨t, ht⟩
    exact h _ (.token (by simpa [Expected.admits, eq_comm] using ht))
  · rintro h _ ⟨ht⟩
    exact h ⟨_, by simp [Expected.admits, ht]⟩

theorem forall_rule {n : Nonterminal} :
    (∀ ts, Spells N (.rule n) ts → Q ts) ↔ ∀ ts, N n ts → Q ts := by
  constructor
  · exact fun h ts hn => h ts (.rule hn)
  · rintro h _ ⟨⟩
    exact h _ ‹_›

theorem forall_nil : (∀ ts, Spells N (.sequence []) ts → Q ts) ↔ Q [] := by
  constructor
  · exact fun h => h [] .nil
  · rintro h _ ⟨⟩
    exact h

theorem forall_cons {e : Ebnf} {es : List Ebnf} :
    (∀ ts, Spells N (.sequence (e :: es)) ts → Q ts) ↔
      ∀ us, Spells N e us → ∀ vs, Spells N (.sequence es) vs → Q (us ++ vs) := by
  constructor
  · exact fun h us hu vs hv => h _ (.cons hu hv)
  · rintro h _ (_ | _ | _ | ⟨hu, hv⟩)
    exact h _ hu _ hv

theorem forall_choice {es : List Ebnf} :
    (∀ ts, Spells N (.choice es) ts → Q ts) ↔ ∀ e ∈ es, ∀ ts, Spells N e ts → Q ts := by
  constructor
  · exact fun h e he ts ht => h ts (.choice he ht)
  · rintro h ts (_ | _ | _ | _ | ⟨he, ht⟩)
    exact h _ he ts ht

theorem forall_option {e : Ebnf} :
    (∀ ts, Spells N (.option e) ts → Q ts) ↔ Q [] ∧ ∀ ts, Spells N e ts → Q ts := by
  constructor
  · exact fun h => ⟨h [] .absent, fun ts ht => h ts (.present ht)⟩
  · rintro ⟨h₀, h₁⟩ _ (_ | _ | _ | _ | _ | _ | ht)
    · exact h₀
    · exact h₁ _ ht

end Forall

theorem Spells.repeated_right {e : Ebnf} {P : List Token → Prop} (nil : P [])
    (cons : ∀ {us vs}, Spells N e us → P vs → P (us ++ vs)) {ts : List Token}
    (h : Spells N (.repeated e) ts) : P ts := by
  generalize he : Ebnf.repeated e = r at h
  induction h with
  | done => exact nil
  | more h₁ _ _ ih =>
    obtain rfl := Ebnf.repeated.inj he
    exact cons h₁ (ih rfl)
  | _ => cases he

theorem Spells.repeated_left {e : Ebnf} {P : List Token → Prop}
    (step : ∀ {us vs}, P us → Spells N e vs → P (us ++ vs)) {us ts : List Token} (hu : P us)
    (h : Spells N (.repeated e) ts) : P (us ++ ts) := by
  refine Spells.repeated_right (P := fun ts => ∀ us, P us → P (us ++ ts)) ?_ ?_ h us hu
  · intro us hu
    simpa using hu
  · intro vs ws hv ih us hu
    rw [← List.append_assoc]
    exact ih _ (step hu hv)

end Ebnf

def Nonterminal.Phrased : Nonterminal → List Token → Prop
  | .program, ts => ∃ p : ProgramPhrase, ts = p.tokens
  | .declarationList, ts => ∃ ds : List DeclarationPhrase, ts = ds.flatMap (·.tokens)
  | .declaration, ts => ∃ d : DeclarationPhrase, ts = d.tokens
  | .variableDeclaration, ts => ∃ v : VariablePhrase, ts = v.tokens
  | .arrayDeclaration, ts => ∃ a : ArrayPhrase, ts = a.tokens
  | .functionDefinition, ts => ∃ f : FunctionPhrase, ts = f.tokens
  | .parameterList, ts => ∃ p : ParametersPhrase, ts = p.tokens
  | .parameter, ts => ∃ p : ParameterPhrase, ts = p.tokens
  | .statementBlock, ts => ∃ s : StatementPhrase .block, ts = s.tokens
  | .statementList, ts => ∃ s : StatementPhrase .statements, ts = s.tokens
  | .statement, ts | .assignmentStatement, ts | .callStatement, ts | .ifStatement, ts
  | .whileStatement, ts | .returnStatement, ts => ∃ s : StatementPhrase .statement, ts = s.tokens
  | .designator, ts => ∃ e : Phrase .designator, ts = e.tokens
  | .callExpression, ts => ∃ e : Phrase .call, ts = e.tokens
  | .expressionList, ts => ∃ e : Phrase .arguments, ts = e.tokens
  | .expression0, ts => ∃ e : Phrase .comparison, ts = e.tokens
  | .expression1, ts => ∃ e : Phrase .sum, ts = e.tokens
  | .expression2, ts => ∃ e : Phrase .product, ts = e.tokens
  | .expression3, ts => ∃ e : Phrase .operand, ts = e.tokens
  | .typeName, ts => ∃ t : TokenOf Nonterminal.typeName, ts = [t.val]
  | .literal, ts => ∃ t : TokenOf Nonterminal.literal, ts = [t.val]
  | .op0, ts => ∃ t : TokenOf Nonterminal.op0, ts = [t.val]
  | .op1, ts => ∃ t : TokenOf Nonterminal.op1, ts = [t.val]
  | .op2, ts => ∃ t : TokenOf Nonterminal.op2, ts = [t.val]

namespace Nonterminal

open Ebnf

-- The lemmas below unfold the production of each nonterminal.
attribute [local simp] production

def Closed (n : Nonterminal) : Prop := ∀ ts, Spells Phrased n.production ts → n.Phrased ts

theorem kinds_closed {n : Nonterminal} (hp : n.production = .choice (n.first.map .token))
    (hn : ∀ ts, n.Phrased ts ↔ ∃ t : TokenOf n, ts = [t.val]) : n.Closed := by
  intro ts h
  rw [hp] at h
  rw [hn]
  revert ts
  simp only [forall_choice, List.forall_mem_map, forall_token]
  rintro k hk ⟨t, ht⟩
  refine ⟨⟨t, ?_⟩, rfl⟩
  simp only [Expected.admits, decide_eq_true_eq] at ht ⊢
  exact ht ▸ hk

theorem typeName_closed : typeName.Closed := by
  simp only [Closed, production, forall_token]
  rintro ⟨t, ht⟩
  exact ⟨⟨t, by simpa [Expected.admits, first, eq_comm] using ht⟩, rfl⟩

theorem designator_closed : designator.Closed := by
  simp only [Closed, production, forall_cons, forall_token, forall_nil, List.append_nil]
  intro ident ts h
  refine h.repeated_left ?_ (P := designator.Phrased) ⟨.name ident, rfl⟩
  rintro _ vs ⟨base, rfl⟩
  revert vs
  simp only [forall_cons, forall_token, forall_rule, forall_nil, List.append_nil]
  rintro left _ ⟨amount, rfl⟩ right
  exact ⟨.element base left amount right, rfl⟩

theorem expressionList_closed : expressionList.Closed := by
  simp only [Closed, production, commaList, forall_option, forall_cons, forall_rule, forall_nil,
    List.append_nil]
  refine ⟨⟨.noArguments, rfl⟩, ?_⟩
  rintro _ ⟨first, rfl⟩ ts h
  have further : ∃ rest : Phrase .further, ts = rest.tokens := by
    refine h.repeated_right (P := fun ts => ∃ rest : Phrase .further, ts = rest.tokens)
      ⟨.noFurther, rfl⟩ ?_
    rintro us _ h ⟨rest, rfl⟩
    revert us
    simp only [forall_cons, forall_token, forall_rule, forall_nil, List.append_nil]
    rintro comma _ ⟨next, rfl⟩
    exact ⟨.further comma next rest, by simp [Phrase.tokens]⟩
  obtain ⟨rest, rfl⟩ := further
  exact ⟨.arguments first rest, rfl⟩

theorem callExpression_closed : callExpression.Closed := by
  simp only [Closed, production, forall_cons, forall_token, forall_rule, forall_nil,
    List.append_nil]
  rintro mark ident left _ ⟨args, rfl⟩ right
  exact ⟨.call mark ident left args right, rfl⟩

theorem expression3_closed : expression3.Closed := by
  simp only [Closed, production, forall_choice, List.forall_mem_cons, forall_cons, forall_token,
    forall_rule, forall_nil, List.append_nil]
  refine ⟨?_, ?_, ?_, ?_, ?_, by simp⟩
  · rintro mark _ ⟨inner, rfl⟩
    exact ⟨.not mark inner, rfl⟩
  · rintro left _ ⟨inner, rfl⟩ right
    exact ⟨.group left inner right, rfl⟩
  · rintro _ ⟨address, rfl⟩
    exact ⟨.value address, rfl⟩
  · rintro _ ⟨c, rfl⟩
    exact ⟨.result c, rfl⟩
  · rintro _ ⟨t, rfl⟩
    exact ⟨.literal t, rfl⟩

theorem expression2_closed : expression2.Closed := by
  simp only [Closed, production, forall_cons, forall_rule, forall_nil, List.append_nil]
  rintro _ ⟨first, rfl⟩ ts h
  refine h.repeated_left ?_ (P := expression2.Phrased) ⟨.factor first, rfl⟩
  rintro _ vs ⟨left, rfl⟩
  revert vs
  simp only [forall_cons, forall_rule, forall_nil, List.append_nil]
  rintro _ ⟨op, rfl⟩ _ ⟨right, rfl⟩
  exact ⟨.product left op right, rfl⟩

theorem expression1_closed : expression1.Closed := by
  simp only [Closed, production, forall_cons, forall_rule, forall_nil, List.append_nil]
  rintro _ ⟨first, rfl⟩ ts h
  refine h.repeated_left ?_ (P := expression1.Phrased) ⟨.term first, rfl⟩
  rintro _ vs ⟨left, rfl⟩
  revert vs
  simp only [forall_cons, forall_rule, forall_nil, List.append_nil]
  rintro _ ⟨op, rfl⟩ _ ⟨right, rfl⟩
  exact ⟨.sum left op right, rfl⟩

theorem expression0_closed : expression0.Closed := by
  simp only [Closed, production, forall_cons, forall_option, forall_rule, forall_nil,
    List.append_nil]
  rintro _ ⟨left, rfl⟩
  refine ⟨⟨.plain left, rfl⟩, ?_⟩
  rintro _ ⟨op, rfl⟩ _ ⟨right, rfl⟩
  exact ⟨.comparison left op right, rfl⟩

theorem variableDeclaration_closed : variableDeclaration.Closed := by
  simp only [Closed, production, forall_cons, forall_token, forall_rule, forall_nil,
    List.append_nil]
  rintro start ident colon _ ⟨type, rfl⟩ stop
  exact ⟨⟨start, ident, colon, type, stop⟩, rfl⟩

theorem arrayDeclaration_closed : arrayDeclaration.Closed := by
  simp only [Closed, production, Ebnf.extent, forall_cons, forall_token, forall_rule, forall_nil,
    List.append_nil]
  rintro start ident colon _ ⟨type, rfl⟩ left size right ts h stop
  have extents : ∃ rest : List ExtentPhrase, ts = rest.flatMap ExtentPhrase.tokens := by
    refine h.repeated_right (P := fun ts => ∃ rest : List ExtentPhrase, ts = rest.flatMap _)
      ⟨[], rfl⟩ ?_
    rintro us _ h ⟨rest, rfl⟩
    revert us
    simp only [forall_cons, forall_token, forall_nil, List.append_nil]
    intro left size right
    exact ⟨⟨left, size, right⟩ :: rest, rfl⟩
  obtain ⟨rest, rfl⟩ := extents
  exact ⟨⟨start, ident, colon, type, ⟨left, size, right⟩, rest, stop⟩, rfl⟩

theorem callStatement_closed : callStatement.Closed := by
  simp only [Closed, production, forall_cons, forall_token, forall_rule, forall_nil,
    List.append_nil]
  rintro _ ⟨c, rfl⟩ stop
  exact ⟨.call c stop, rfl⟩

theorem assignmentStatement_closed : assignmentStatement.Closed := by
  simp only [Closed, production, forall_cons, forall_token, forall_rule, forall_nil,
    List.append_nil]
  rintro start _ ⟨target, rfl⟩ mark _ ⟨source, rfl⟩ stop
  exact ⟨.assign start target mark source stop, rfl⟩

theorem ifStatement_closed : ifStatement.Closed := by
  simp only [Closed, production, forall_cons, forall_option, forall_token, forall_rule, forall_nil,
    List.append_nil]
  rintro start _ ⟨condition, rfl⟩ _ ⟨yes, rfl⟩
  refine ⟨⟨.branch start condition yes, rfl⟩, ?_⟩
  rintro mark _ ⟨no, rfl⟩
  exact ⟨.branchElse start condition yes mark no, rfl⟩

theorem whileStatement_closed : whileStatement.Closed := by
  simp only [Closed, production, forall_cons, forall_token, forall_rule, forall_nil,
    List.append_nil]
  rintro start _ ⟨condition, rfl⟩ _ ⟨body, rfl⟩
  exact ⟨.loop start condition body, rfl⟩

theorem returnStatement_closed : returnStatement.Closed := by
  simp only [Closed, production, forall_cons, forall_option, forall_token, forall_rule, forall_nil,
    List.append_nil]
  refine fun start => ⟨fun stop => ⟨.leave start stop, rfl⟩, ?_⟩
  rintro _ ⟨result, rfl⟩ stop
  exact ⟨.leaveWith start result stop, rfl⟩

theorem statement_closed : statement.Closed := by
  simp only [Closed, production, forall_choice, List.forall_mem_cons, forall_rule]
  refine ⟨?_, ?_, ?_, ?_, ?_, ?_, ?_, by simp⟩
  · rintro _ ⟨v, rfl⟩
    exact ⟨.var v, rfl⟩
  · rintro _ ⟨a, rfl⟩
    exact ⟨.array a, rfl⟩
  all_goals exact fun _ h => h

theorem statementList_closed : statementList.Closed := by
  intro ts h
  refine h.repeated_right ⟨.none, rfl⟩ ?_
  rintro us _ h ⟨rest, rfl⟩
  revert us
  simp only [forall_rule]
  rintro _ ⟨first, rfl⟩
  exact ⟨.next first rest, rfl⟩

theorem statementBlock_closed : statementBlock.Closed := by
  simp only [Closed, production, forall_cons, forall_token, forall_rule, forall_nil,
    List.append_nil]
  rintro left _ ⟨items, rfl⟩ right
  exact ⟨.block left items right, rfl⟩

theorem parameter_closed : parameter.Closed := by
  simp only [Closed, production, forall_cons, forall_token, forall_rule, forall_nil,
    List.append_nil]
  rintro ident colon _ ⟨type, rfl⟩
  exact ⟨⟨ident, colon, type⟩, rfl⟩

theorem parameterList_closed : parameterList.Closed := by
  simp only [Closed, production, commaList, forall_option, forall_cons, forall_rule, forall_nil,
    List.append_nil]
  refine ⟨⟨.none, rfl⟩, ?_⟩
  rintro _ ⟨first, rfl⟩ ts h
  have further : ∃ rest : List (TokenOf Kind.comma × ParameterPhrase),
      ts = rest.flatMap fun c => c.1.val :: c.2.tokens := by
    refine h.repeated_right (P := fun ts => ∃ rest : List (_ × ParameterPhrase), ts = rest.flatMap _)
      ⟨[], rfl⟩ ?_
    rintro us _ h ⟨rest, rfl⟩
    revert us
    simp only [forall_cons, forall_token, forall_rule, forall_nil, List.append_nil]
    rintro comma _ ⟨next, rfl⟩
    exact ⟨(comma, next) :: rest, rfl⟩
  obtain ⟨rest, rfl⟩ := further
  exact ⟨.some first rest, rfl⟩

theorem functionDefinition_closed : functionDefinition.Closed := by
  simp only [Closed, production, forall_cons, forall_token, forall_rule, forall_nil,
    List.append_nil]
  rintro start ident left _ ⟨params, rfl⟩ right colon _ ⟨type, rfl⟩ _ ⟨body, rfl⟩
  exact ⟨⟨start, ident, left, params, right, colon, type, body⟩, rfl⟩

theorem declaration_closed : declaration.Closed := by
  simp only [Closed, production, forall_choice, List.forall_mem_cons, forall_rule]
  refine ⟨?_, ?_, ?_, by simp⟩
  · rintro _ ⟨v, rfl⟩
    exact ⟨.var v, rfl⟩
  · rintro _ ⟨a, rfl⟩
    exact ⟨.array a, rfl⟩
  · rintro _ ⟨f, rfl⟩
    exact ⟨.function f, rfl⟩

theorem declarationList_closed : declarationList.Closed := by
  intro ts h
  refine h.repeated_right ⟨[], rfl⟩ ?_
  rintro us _ h ⟨rest, rfl⟩
  revert us
  simp only [forall_rule]
  rintro _ ⟨first, rfl⟩
  exact ⟨first :: rest, rfl⟩

theorem program_closed : program.Closed := by
  simp only [Closed, production, forall_cons, forall_token, forall_rule, forall_nil,
    List.append_nil]
  rintro _ ⟨items, rfl⟩ stop
  exact ⟨⟨items, stop⟩, rfl⟩

theorem closed (n : Nonterminal) : n.Closed := by
  cases n with
  | op0 | op1 | op2 | literal => exact kinds_closed rfl fun _ => Iff.rfl
  | typeName => exact typeName_closed
  | designator => exact designator_closed
  | callExpression => exact callExpression_closed
  | expressionList => exact expressionList_closed
  | expression3 => exact expression3_closed
  | expression2 => exact expression2_closed
  | expression1 => exact expression1_closed
  | expression0 => exact expression0_closed
  | variableDeclaration => exact variableDeclaration_closed
  | arrayDeclaration => exact arrayDeclaration_closed
  | callStatement => exact callStatement_closed
  | assignmentStatement => exact assignmentStatement_closed
  | ifStatement => exact ifStatement_closed
  | whileStatement => exact whileStatement_closed
  | returnStatement => exact returnStatement_closed
  | statement => exact statement_closed
  | statementList => exact statementList_closed
  | statementBlock => exact statementBlock_closed
  | parameter => exact parameter_closed
  | parameterList => exact parameterList_closed
  | functionDefinition => exact functionDefinition_closed
  | declaration => exact declaration_closed
  | declarationList => exact declarationList_closed
  | program => exact program_closed

/-- Tokens whose kinds are derived from a nonterminal are those of a phrase. -/
theorem phrased_of_derives {n : Nonterminal} {ts : List Token}
    (h : (Ebnf.rule n).Derives (ts.map Token.kind)) : n.Phrased ts := by
  cases Derives.spells (fun {n ts} => closed n ts) h rfl with
  | rule h => exact h

end Nonterminal

end Crux
