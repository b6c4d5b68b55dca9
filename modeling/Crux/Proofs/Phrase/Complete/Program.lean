import Crux.Proofs.Phrase.Complete.Expression
import Crux.Proofs.Phrase.Program

namespace Crux

namespace Parse

def anyKind (_ : Kind) : Bool := true

-- The lemmas below unfold the tokens and the tree of each kind of statement.
attribute [local simp] StatementPhrase.tokens StatementPhrase.build

theorem Makes.always {α : Type} {x : Parse α} {ts : List Token}
    {f : Position → Draft → α × Draft} (h : x.Makes ts f anyKind) (fine : Kind → Bool) :
    x.Makes ts f fine :=
  fun d t rest _ => h d t rest rfl

section Rows

variable {α γ : Type} {e : Expected} {item : Parse α} {fine fine' : Kind → Bool}

theorem manyUpTo_forEach {tokens : γ → List Token} {build : γ → Draft → α × Draft} {l : List γ}
    (stop : ∀ k, fine k → e.admits k = false ∧ fine' k) (next : ∀ k, e.admits k → fine' k)
    (opens : ∀ c ∈ l, Opens e (tokens c))
    (hi : ∀ c ∈ l, item.Makes (tokens c) (fun _ => build c) fine') {n : Nat}
    (hn : (l.flatMap tokens).length ≤ n) :
    (manyUpTo e item n).Makes (l.flatMap tokens) (fun _ => Draft.forEach build l) fine := by
  induction l generalizing n with
  | nil => exact manyUpTo_none n fun k hk => (stop k hk).1
  | cons c l ih =>
    obtain ⟨t, ts, ht⟩ := opens c List.mem_cons_self
    simp only [List.flatMap_cons, List.length_append, ht, List.length_cons] at hn
    obtain ⟨n, rfl⟩ : ∃ m, n = m + 1 := ⟨n - 1, by omega⟩
    have hr := ih (fun c hc => opens c (List.mem_cons_of_mem _ hc))
      (fun c hc => hi c (List.mem_cons_of_mem _ hc)) (n := n) (by omega)
    have follow : ∀ k, fine k → fine' (kindOf (l.flatMap tokens) k) := by
      intro k hk
      cases l with
      | nil => exact (stop k hk).2
      | cons c' l =>
        obtain ⟨u, us, hu⟩ := opens c' (by simp)
        rw [List.flatMap_cons, hu, List.cons_append, kindOf]
        exact next _ u.property
    exact manyUpTo_next (opens c List.mem_cons_self) follow (hi c List.mem_cons_self) hr

theorem many_forEach {tokens : γ → List Token} {build : γ → Draft → α × Draft} {l : List γ}
    (stop : ∀ k, fine k → e.admits k = false ∧ fine' k) (next : ∀ k, e.admits k → fine' k)
    (opens : ∀ c ∈ l, Opens e (tokens c))
    (hi : ∀ c ∈ l, item.Makes (tokens c) (fun _ => build c) fine') :
    (many e item).Makes (l.flatMap tokens) (fun _ => Draft.forEach build l) fine :=
  many_makes fun _ hn => manyUpTo_forEach stop next opens hi hn

theorem inScope_makes {x : Parse α} {ts : List Token} {f : Position → Draft → α × Draft}
    (h : x.Makes ts f fine) :
    (inScope x).Makes ts
      (fun after d =>
        let (a, d) := f after d.openScope
        (a, d.closeScope)) fine := by
  intro d t rest ht
  rw [inScope, bind_done (make_reading _ _), bind_done (h _ _ _ ht), bind_done (make_reading _ _)]
  rfl

end Rows

theorem variableDeclaration_complete (v : VariablePhrase) :
    variableDeclaration.Makes v.tokens (fun _ => v.build) anyKind := by
  intro d t rest _
  simp only [VariablePhrase.tokens, List.cons_append, List.nil_append]
  rw [variableDeclaration, bind_done (expect_reading v.start (by simp)),
    bind_done (expect_reading v.ident (by simp)), declare, bind_done (make_reading _ _),
    bind_done (expect_reading v.colon (by simp)), typeName, bind_assoc,
    bind_done (expect_reading v.type (by simp))]
  rw [pure_bind, setType, bind_done (make_reading _ _),
    bind_done (expect_reading v.stop (by simp)), symbol, bind_done (make_reading _ _)]
  rfl

theorem extent_complete (x : ExtentPhrase) :
    extent.Makes x.tokens (fun _ d => (x.size.val, d)) anyKind := by
  intro d t rest _
  simp only [ExtentPhrase.tokens, List.cons_append, List.nil_append]
  rw [extent, bind_done (expect_reading x.left (by simp)),
    bind_done (expect_reading x.size (by simp)), bind_done (expect_reading x.right (by simp))]
  rfl

theorem extents_complete (l : List ExtentPhrase) :
    (many Kind.openBracket extent).Makes (l.flatMap ExtentPhrase.tokens)
      (fun _ d => (l.map (·.size.val), d)) (· == .semicolon) := by
  have build : Draft.forEach (fun (x : ExtentPhrase) d => (x.size.val, d)) l =
      fun d => (l.map (·.size.val), d) := by
    funext d
    induction l with
    | nil => rfl
    | cons x l ih => simp [Draft.forEach, ih]
  rw [← build]
  exact many_forEach (by decide) (by decide) (fun x _ => ⟨x.left, _, rfl⟩)
    fun x _ => extent_complete x

theorem arrayDeclaration_complete (a : ArrayPhrase) :
    arrayDeclaration.Makes a.tokens (fun _ => a.build) anyKind := by
  intro d t rest _
  have hs : (a.stop.val.kind == .semicolon) = true := by rw [a.stop.kind_eq]; rfl
  simp only [ArrayPhrase.tokens, List.cons_append, List.append_assoc, List.nil_append]
  rw [arrayDeclaration, bind_done (expect_reading a.start (by simp)),
    bind_done (expect_reading a.ident (by simp)), declare, bind_done (make_reading _ _),
    bind_done (expect_reading a.colon (by simp)), typeName, bind_assoc,
    bind_done (expect_reading a.type (by simp [ExtentPhrase.tokens])), pure_bind,
    bind_done ((extent_complete a.first).before rfl _ _),
    bind_done (extents_complete a.rest _ _ _ hs), bind_done (expect_reading a.stop (by simp)),
    setType, bind_done (make_reading _ _), symbol, bind_done (make_reading _ _)]
  rfl

theorem callStatement_complete (c : Phrase .call) (stop : TokenOf Kind.semicolon) :
    callStatement.Makes (c.tokens ++ [stop.val]) (fun _ => c.build) anyKind := by
  intro d t rest _
  rw [callStatement, List.append_assoc, List.cons_append,
    bind_done (callExpression_complete c _ _ _ rfl), List.nil_append,
    bind_done (expect_reading stop (by simp))]
  rfl

theorem assignment_complete (start : TokenOf Kind.kwLet) (target : Phrase .designator)
    (mark : TokenOf Kind.assign) (source : Phrase .comparison) (stop : TokenOf Kind.semicolon) :
    assignment.Makes (StatementPhrase.assign start target mark source stop).tokens
      (StatementPhrase.assign start target mark source stop).build anyKind := by
  intro d t rest _
  have hm : Form.designator.ends mark.val.kind := by rw [mark.kind_eq]; rfl
  have hs : Form.comparison.ends stop.val.kind := by rw [stop.kind_eq]; rfl
  simp only [StatementPhrase.tokens, List.cons_append, List.append_assoc, List.nil_append]
  rw [assignment, bind_done (expect_reading start (by simp)),
    bind_done (designator_complete target _ _ _ hm), bind_done (expect_reading mark (by simp)),
    bind_done (expression_complete source _ _ _ hs), bind_done (expect_reading stop (by simp))]
  rfl

theorem returnStatement_leave (start : TokenOf Kind.kwReturn) (stop : TokenOf Kind.semicolon) :
    returnStatement.Makes (StatementPhrase.leave start stop).tokens
      (StatementPhrase.leave start stop).build anyKind := by
  intro d t rest _
  have hs : ¬ Expected.admits Nonterminal.expression0 stop.val.kind := by
    rw [stop.kind_eq]
    decide
  simp only [StatementPhrase.tokens, List.cons_append, List.nil_append]
  rw [returnStatement, bind_done (expect_reading start (by simp)), bind_done (sees_reading _ _ _),
    if_neg hs, bind_done (expect_reading stop (by simp))]
  rfl

theorem returnStatement_leaveWith (start : TokenOf Kind.kwReturn) (result : Phrase .comparison)
    (stop : TokenOf Kind.semicolon) :
    returnStatement.Makes (StatementPhrase.leaveWith start result stop).tokens
      (StatementPhrase.leaveWith start result stop).build anyKind := by
  intro d t rest _
  have hs : Form.comparison.ends stop.val.kind := by rw [stop.kind_eq]; rfl
  have ho : Opens Nonterminal.expression0 result.tokens := result.opens.resolve_left (by simp)
  simp only [StatementPhrase.tokens, List.cons_append, List.append_assoc, List.nil_append]
  rw [returnStatement, bind_done (expect_reading start (by simp)), bind_done (sees_opens ho _ _),
    if_pos rfl, bind_done (expression_complete result _ _ _ hs),
    bind_done (expect_reading stop (by simp))]
  rfl

section Blocks

variable {inner : Parse Node}

theorem blockOf_complete (left : TokenOf Kind.openBrace) {items : StatementPhrase .statements}
    (right : TokenOf Kind.closeBrace)
    (h : (many Nonterminal.statement inner).Makes items.tokens items.build (· == .closeBrace)) :
    (blockOf inner).Makes (StatementPhrase.block left items right).tokens
      (StatementPhrase.block left items right).build anyKind := by
  intro d t rest _
  have hr : (right.val.kind == .closeBrace) = true := by rw [right.kind_eq]; rfl
  simp only [StatementPhrase.tokens, List.cons_append, List.append_assoc, List.nil_append]
  rw [blockOf, bind_done (expect_reading left (by simp)), bind_done (position_start _ _ _ _),
    bind_done (h _ _ _ hr), node, bind_done (make_reading _ _),
    bind_done (expect_reading right (by simp))]
  rfl

theorem condition_complete (condition : Phrase .comparison) (b : StatementPhrase .block) (d : Draft)
    (t : Token) (rest : List Token) :
    Parse.expression (d.reading (condition.tokens ++ (b.tokens ++ t :: rest))) =
      .done (condition.build d).1 ((condition.build d).2.reading (b.tokens ++ t :: rest)) := by
  cases b with
  | block left items right =>
    have hl : Form.comparison.ends left.val.kind := by rw [left.kind_eq]; rfl
    exact expression_complete condition d left.val _ hl

theorem ifStatement_branch (start : TokenOf Kind.kwIf) (condition : Phrase .comparison)
    {yes : StatementPhrase .block} (h : (blockOf inner).Makes yes.tokens yes.build anyKind) :
    (ifStatement inner).Makes (StatementPhrase.branch start condition yes).tokens
      (StatementPhrase.branch start condition yes).build (· != .kwElse) := by
  intro d t rest ht
  have hk : t.kind ≠ .kwElse := by simpa using ht
  simp only [StatementPhrase.tokens, List.cons_append, List.append_assoc]
  rw [ifStatement, bind_done (expect_reading start (by simp)),
    bind_done (condition_complete condition yes _ _ _), bind_done (inScope_makes h _ _ _ rfl),
    bind_done (accept_reading_other hk _)]
  rfl

theorem ifStatement_branchElse (start : TokenOf Kind.kwIf) (condition : Phrase .comparison)
    {yes no : StatementPhrase .block} (mark : TokenOf Kind.kwElse)
    (hy : (blockOf inner).Makes yes.tokens yes.build anyKind)
    (hn : (blockOf inner).Makes no.tokens no.build anyKind) :
    (ifStatement inner).Makes (StatementPhrase.branchElse start condition yes mark no).tokens
      (StatementPhrase.branchElse start condition yes mark no).build anyKind := by
  intro d t rest _
  simp only [StatementPhrase.tokens, List.cons_append, List.append_assoc]
  rw [ifStatement, bind_done (expect_reading start (by simp)),
    bind_done (condition_complete condition yes _ _ _), bind_done (inScope_makes hy _ _ _ rfl),
    bind_done (accept_reading mark (by simp)), if_pos rfl,
    bind_done (inScope_makes hn _ _ _ rfl)]
  rfl

theorem whileStatement_loop (start : TokenOf Kind.kwWhile) (condition : Phrase .comparison)
    {body : StatementPhrase .block} (h : (blockOf inner).Makes body.tokens body.build anyKind) :
    (whileStatement inner).Makes (StatementPhrase.loop start condition body).tokens
      (StatementPhrase.loop start condition body).build anyKind := by
  intro d t rest _
  simp only [StatementPhrase.tokens, List.cons_append, List.append_assoc]
  rw [whileStatement, bind_done (expect_reading start (by simp)),
    bind_done (condition_complete condition body _ _ _), bind_done (inScope_makes h _ _ _ rfl)]
  rfl

def statementRule (inner : Parse Node) : Kind → Parse Node
  | .kwVar => variableDeclaration
  | .kwArray => arrayDeclaration
  | .call => callStatement
  | .kwLet => assignment
  | .kwIf => ifStatement inner
  | .kwWhile => whileStatement inner
  | .kwReturn => returnStatement
  | _ => fail Nonterminal.statement

theorem statementOf_reading (d : Draft) (t : Token) (ts : List Token) :
    statementOf inner (d.reading (t :: ts)) =
      statementRule inner t.kind (d.reading (t :: ts)) := by
  cases h : t.kind <;>
    simp [statementOf, statementRule, bind_run, sees_reading, Expected.admits, Nonterminal.first, h]

theorem statementOf_makes {k : Kind} {ts : List Token} {f : Position → Draft → Node × Draft}
    {fine : Kind → Bool} (ho : Opens k ts) (h : (statementRule inner k).Makes ts f fine) :
    (statementOf inner).Makes ts f fine := by
  intro d t rest ht
  obtain ⟨u, us, rfl⟩ := ho
  rw [List.cons_append, statementOf_reading, u.kind_eq]
  exact h d t rest ht

end Blocks

end Parse

namespace StatementPhrase

open Parse

theorem opens {f : StatementForm} (s : StatementPhrase f) :
    match f with
    | .statement => Opens Nonterminal.statement s.tokens
    | .statements => s.tokens = [] ∨ Opens Nonterminal.statement s.tokens
    | .block => Opens Kind.openBrace s.tokens := by
  induction s with
  | var v => exact .mono ⟨v.start, _, rfl⟩ (by decide)
  | array a => exact .mono ⟨a.start, _, rfl⟩ (by decide)
  | call c stop => exact ((c.opens.resolve_left (by simp)).append _).mono (by decide)
  | assign start | branch start | branchElse start | loop start | leave start | leaveWith start =>
    exact .mono ⟨start, _, rfl⟩ (by decide)
  | block left items right => exact ⟨left, _, rfl⟩
  | none => exact .inl rfl
  | next first rest ih => exact .inr (ih.append _)

def Complete : {f : StatementForm} → StatementPhrase f → Prop
  | .statement, s => ∀ n, s.tokens.length ≤ n →
    (statementAt n).Makes s.tokens s.build (· != .kwElse)
  | .statements, s => ∀ n m, s.tokens.length ≤ n → s.tokens.length ≤ m →
    (manyUpTo Nonterminal.statement (statementAt n) m).Makes s.tokens s.build (· == .closeBrace)
  | .block, s => ∀ n, s.tokens.length ≤ n + 1 →
    (blockOf (statementAt n)).Makes s.tokens s.build anyKind

theorem complete_of_rule {s : StatementPhrase .statement} {k : Kind} (ho : Opens k s.tokens)
    (h : ∀ n, s.tokens.length ≤ n + 1 →
      (statementRule (statementAt n) k).Makes s.tokens s.build (· != .kwElse)) : s.Complete := by
  intro n hn
  obtain ⟨n, rfl⟩ : ∃ m, n = m + 1 := by
    obtain ⟨u, us, e⟩ := ho
    exact ⟨n - 1, by rw [e, List.length_cons] at hn; omega⟩
  exact statementOf_makes ho (h n hn)

theorem build_after (b : StatementPhrase .block) (p q : Position) : b.build p = b.build q := by
  cases b
  rfl

theorem complete {f : StatementForm} (s : StatementPhrase f) : s.Complete := by
  induction s with
  | var v =>
    exact complete_of_rule ⟨v.start, _, rfl⟩ fun _ _ => (variableDeclaration_complete v).always _
  | array a =>
    exact complete_of_rule ⟨a.start, _, rfl⟩ fun _ _ => (arrayDeclaration_complete a).always _
  | call c stop =>
    exact complete_of_rule ((c.opens.resolve_left (by simp)).append _)
      fun _ _ => (callStatement_complete c stop).always _
  | assign start target mark source stop =>
    exact complete_of_rule ⟨start, _, rfl⟩
      fun _ _ => (assignment_complete start target mark source stop).always _
  | branch start condition yes ih =>
    refine complete_of_rule ⟨start, _, rfl⟩ fun n hn => ?_
    simp only [tokens, List.length_append, List.length_cons] at hn
    exact ifStatement_branch start condition (ih n (by omega))
  | branchElse start condition yes mark no ihy ihn =>
    refine complete_of_rule ⟨start, _, rfl⟩ fun n hn => ?_
    simp only [tokens, List.length_append, List.length_cons] at hn
    exact (ifStatement_branchElse start condition mark (ihy n (by omega))
      (ihn n (by omega))).always _
  | loop start condition body ih =>
    refine complete_of_rule ⟨start, _, rfl⟩ fun n hn => ?_
    simp only [tokens, List.length_append, List.length_cons] at hn
    exact (whileStatement_loop start condition (ih n (by omega))).always _
  | leave start stop =>
    exact complete_of_rule ⟨start, _, rfl⟩ fun _ _ => (returnStatement_leave start stop).always _
  | leaveWith start result stop =>
    exact complete_of_rule ⟨start, _, rfl⟩
      fun _ _ => (returnStatement_leaveWith start result stop).always _
  | block left items right ih =>
    intro n hn
    simp only [tokens, List.length_append, List.length_cons, List.length_nil] at hn
    exact blockOf_complete left right (many_makes fun m hm => ih n m (by omega) hm)
  | none => exact fun n m _ _ => manyUpTo_none m (by decide)
  | next first rest ihf ihr =>
    intro n m hn hm
    obtain ⟨t, ts, e⟩ := first.opens
    simp only [tokens, List.length_append, e, List.length_cons] at hn hm
    obtain ⟨m, rfl⟩ : ∃ l, m = l + 1 := ⟨m - 1, by omega⟩
    have follow : ∀ k, k == .closeBrace → kindOf rest.tokens k != .kwElse := by
      have begins : ∀ k, Expected.admits Nonterminal.statement k → k != .kwElse := by decide
      intro k hk
      obtain e | ⟨u, us, e⟩ := rest.opens
      · rw [e]
        revert k
        decide
      · rw [e]
        exact begins _ u.property
    exact manyUpTo_next ⟨t, ts, e⟩ follow (ihf n (by rw [e]; simp; omega))
      (ihr n m (by omega) (by omega))

end StatementPhrase

namespace Parse

theorem block_complete (b : StatementPhrase .block) :
    Parse.block.Makes b.tokens b.build anyKind := by
  intro d t rest ht
  refine b.complete _ ?_ d t rest ht
  simp only [Draft.reading, List.length_tail, List.length_append, List.length_cons]
  omega

theorem parameter_complete (p : ParameterPhrase) :
    parameter.Makes p.tokens (fun _ => p.build) anyKind := by
  intro d t rest _
  simp only [ParameterPhrase.tokens, List.cons_append, List.nil_append]
  rw [parameter, bind_done (expect_reading p.ident (by simp)), declare,
    bind_done (make_reading _ _), bind_done (expect_reading p.colon (by simp)), typeName,
    bind_assoc, bind_done (expect_reading p.type (by simp)), pure_bind, setType,
    bind_done (make_reading _ _)]
  rfl

theorem parameters_complete (p : ParametersPhrase) :
    (commaList Nonterminal.parameter parameter).Makes p.tokens
      (fun _ => Draft.forEach ParameterPhrase.build p.list) (· == .closeParen) := by
  cases p with
  | none => exact commaList_none (by decide)
  | some first rest =>
    have build : Draft.forEach ParameterPhrase.build (rest.map (·.2)) =
        Draft.forEach (fun c => c.2.build) rest := by
      funext d
      exact Draft.forEach_map _ _ _ _
    have hrest : (many Kind.comma (do let _ ← expect Kind.comma; parameter)).Makes
        (rest.flatMap fun c => c.1.val :: c.2.tokens)
        (fun _ => Draft.forEach ParameterPhrase.build (rest.map (·.2))) (· == .closeParen) := by
      rw [build]
      exact many_forEach (by decide) (fun _ _ => rfl) (fun c _ => ⟨c.1, _, rfl⟩)
        fun c _ => comma_item c.1 (parameter_complete c.2)
    exact commaList_some (.mono ⟨first.ident, _, rfl⟩ (by decide)) (fun _ _ => rfl)
      (parameter_complete first) hrest

theorem functionRest_complete (b : Binding) (params : ParametersPhrase)
    (right : TokenOf Kind.closeParen) (colon : TokenOf Kind.colon)
    (type : TokenOf Nonterminal.typeName) (body : StatementPhrase .block) :
    (functionRest b).Makes
      (params.tokens ++ right.val :: colon.val :: type.val :: body.tokens)
      (fun _ d =>
        let (ps, d) := Draft.forEach ParameterPhrase.build params.list d
        let (n, d) :=
          body.build .start (d.setType b (.func (ps.map Symbol.ty) (.ofName type.val.lexeme)))
        ((ps, n), d)) anyKind := by
  intro d t rest ht
  have hr : (right.val.kind == .closeParen) = true := by rw [right.kind_eq]; rfl
  simp only [List.cons_append, List.append_assoc]
  rw [functionRest, bind_done (parameters_complete params _ _ _ hr),
    bind_done (expect_reading right (by simp)), bind_done (expect_reading colon (by simp)),
    typeName, bind_assoc, bind_done (expect_reading type (by simp)), pure_bind, setType,
    bind_done (make_reading _ _), bind_done (block_complete body _ _ _ ht),
    body.build_after t.pos .start]
  rfl

theorem functionDefinition_complete (f : FunctionPhrase) :
    functionDefinition.Makes f.tokens (fun _ => f.build) anyKind := by
  intro d t rest ht
  simp only [FunctionPhrase.tokens, List.cons_append]
  rw [functionDefinition, bind_done (expect_reading f.start (by simp)),
    bind_done (expect_reading f.ident (by simp)), declare, bind_done (make_reading _ _),
    bind_done (expect_reading f.left (by simp)),
    bind_done (inScope_makes (functionRest_complete _ _ _ _ _ _) _ _ _ ht)]
  rfl

theorem declaration_complete (x : DeclarationPhrase) :
    declaration.Makes x.tokens (fun _ => x.build) anyKind := by
  intro d t rest ht
  cases x with
  | var v =>
    have h := variableDeclaration_complete v d t rest ht
    have hk : v.start.val.kind = .kwVar := v.start.kind_eq
    simp only [DeclarationPhrase.tokens, VariablePhrase.tokens, List.cons_append] at h ⊢
    rw [declaration, bind_done (sees_reading _ _ _), hk, if_pos (by decide)]
    exact h
  | array a =>
    have h := arrayDeclaration_complete a d t rest ht
    have hk : a.start.val.kind = .kwArray := a.start.kind_eq
    simp only [DeclarationPhrase.tokens, ArrayPhrase.tokens, List.cons_append] at h ⊢
    rw [declaration, bind_done (sees_reading _ _ _), hk, if_neg (by decide),
      bind_done (sees_reading _ _ _), hk, if_pos (by decide)]
    exact h
  | function f =>
    have h := functionDefinition_complete f d t rest ht
    have hk : f.start.val.kind = .kwFunc := f.start.kind_eq
    simp only [DeclarationPhrase.tokens, FunctionPhrase.tokens, List.cons_append] at h ⊢
    rw [declaration, bind_done (sees_reading _ _ _), hk, if_neg (by decide),
      bind_done (sees_reading _ _ _), hk, if_neg (by decide), bind_done (sees_reading _ _ _), hk,
      if_pos (by decide)]
    exact h

theorem declaration_opens (x : DeclarationPhrase) :
    Opens Nonterminal.declaration x.tokens := by
  cases x with
  | var v => exact .mono ⟨v.start, _, rfl⟩ (by decide)
  | array a => exact .mono ⟨a.start, _, rfl⟩ (by decide)
  | function f => exact .mono ⟨f.start, _, rfl⟩ (by decide)

theorem declarations_complete (l : List DeclarationPhrase) :
    (many Nonterminal.declaration declaration).Makes (l.flatMap DeclarationPhrase.tokens)
      (fun _ => Draft.forEach DeclarationPhrase.build l) (· == .eof) :=
  many_forEach (by decide) (fun _ _ => rfl) (fun x _ => declaration_opens x)
    fun x _ => declaration_complete x

theorem program_complete (p : ProgramPhrase) (d : Draft) :
    program (d.reading p.tokens) = .done (p.build d).1 ((p.build d).2.reading [p.stop.val]) := by
  have hs : (p.stop.val.kind == .eof) = true := by rw [p.stop.kind_eq]; rfl
  rw [program, ProgramPhrase.tokens, bind_done (position_start _ _ _ _),
    bind_done (declarations_complete p.items d _ _ hs), node, bind_done (make_reading _ _)]
  have stop (d : Draft) : expect Kind.eof (d.reading [p.stop.val]) =
      .done p.stop.val (d.reading [p.stop.val]) :=
    if_pos p.stop.property
  rw [bind_done (stop _)]
  rfl

end Parse

end Crux
