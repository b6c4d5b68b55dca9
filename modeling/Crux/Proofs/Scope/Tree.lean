import Crux.Proofs.Grammar.Reports
import Crux.Proofs.Phrase.Program
import Crux.Proofs.Scope.Environment

/-! Scoped trees: every node stands where the grammar allows it, every use of a name has the symbol
that the environment shows, and every declaration is new in its scope. Phrases that are built
without any report make scoped trees. -/

namespace Crux

inductive Role
  | value | address | arguments | statement | block | declaration | program

def Ty.IsNamed (t : Ty) : Prop := ∃ name, t = .ofName name

namespace Node

def binds : Node → Option Symbol
  | .var _ s | .array _ s | .function _ s _ _ => some s
  | _ => none

def after (env : Env) (n : Node) : Env :=
  match n.binds with
  | some s => env.declare s
  | none => env

/-- Each node of a row has the property in the environment that those before it leave. -/
def InOrder (P : Env → Node → Prop) : Env → List Node → Prop
  | _, [] => True
  | env, n :: rest => P env n ∧ InOrder P (n.after env) rest

theorem inOrder_iff {P : Env → Node → Prop} {env : Env} {items : List Node} :
    InOrder P env items ↔
      ∀ before n rest, items = before ++ n :: rest → P (before.foldl after env) n := by
  induction items generalizing env with
  | nil => simp [InOrder]
  | cons m items ih =>
    constructor
    · rintro ⟨hm, hrest⟩ before n rest e
      cases before with
      | nil =>
        obtain ⟨rfl, -⟩ := List.cons.inj e
        exact hm
      | cons u before =>
        obtain ⟨rfl, e'⟩ := List.cons.inj e
        exact ih.mp hrest before n rest e'
    · intro h
      refine ⟨h [] m items rfl, ih.mpr fun before n rest e => ?_⟩
      exact h (m :: before) n rest (by rw [e, List.cons_append])

/-- The heads of functions: the parameters have types that are named, and make up the type of the
function. -/
structure Head (s : Symbol) (params : List Symbol) : Prop where
  type : ∃ result : Ty, result.IsNamed ∧ s.type? = some (.func (params.map Symbol.ty) result)
  named : ∀ p ∈ params, ∃ t : Ty, t.IsNamed ∧ p.type? = some t
  distinct : (params.map Symbol.name).Nodup

inductive Scoped : Role → Env → Node → Prop
  | int : Scoped .value env (.int g v)
  | float : Scoped .value env (.float g v)
  | bool : Scoped .value env (.bool g v)
  | error : Scoped .value env (.error g message)
  | dereference : Scoped .address env a → Scoped .value env (.dereference g a)
  | binary : Scoped .value env l → Scoped .value env r → Scoped .value env (.binary g op l r)
  | compare : Scoped .value env l → Scoped .value env r → Scoped .value env (.compare g op l r)
  | not : Scoped .value env a → Scoped .value env (.not g a)
  | call : env.lookup s.name = some s → Scoped .arguments env args →
      Scoped .value env (.call g s args)
  | addressOf : env.lookup s.name = some s → Scoped .address env (.addressOf g s)
  | index : Scoped .address env b → Scoped .value env a → Scoped .address env (.index g b a)
  | arguments : (∀ x ∈ items, Scoped .value env x) →
      Scoped .arguments env (.list g .expressions items)
  | var : env.IsNew s.name → s.type?.isSome → Scoped .declaration env (.var g s)
  | array : env.IsNew s.name → s.type?.isSome → Scoped .declaration env (.array g s)
  | function : env.IsNew s.name → Head s params →
      Scoped .block (params :: env.declare s) body →
      Scoped .declaration env (.function g s params body)
  | local : Scoped .declaration env n → (∀ g s params body, n ≠ .function g s params body) →
      Scoped .statement env n
  | result : Scoped .value env (.call g s args) → Scoped .statement env (.call g s args)
  | assign : Scoped .address env t → Scoped .value env s → Scoped .statement env (.assign g t s)
  | branch : Scoped .value env c → Scoped .block ([] :: env) y → Scoped .block ([] :: env) n →
      Scoped .statement env (.branch g c y n)
  | loop : Scoped .value env c → Scoped .block ([] :: env) b → Scoped .statement env (.loop g c b)
  | leave : Scoped .statement env (.leave g)
  | leaveWith : Scoped .value env v → Scoped .statement env (.leaveWith g v)
  | block : (∀ before n rest, items = before ++ n :: rest →
      Scoped .statement (before.foldl after env) n) → Scoped .block env (.list g .statements items)
  | program : (∀ before n rest, items = before ++ n :: rest →
      Scoped .declaration (before.foldl after env) n) →
      Scoped .program env (.list g .declarations items)

end Node

namespace Draft

theorem KeepsReading.quiet {d d' : Draft} (h : d.KeepsReading d') (hq : d'.diagnostics = []) :
    d.diagnostics = [] := by
  obtain ⟨xs, e, -⟩ := h
  exact (List.append_eq_nil_iff.mp (e ▸ hq)).1

theorem openScope_keeps (d : Draft) : d.KeepsReading d.openScope := .refl d

theorem closeScope_keeps (d : Draft) : d.KeepsReading d.closeScope := .refl d

theorem setType_keeps (b : Binding) (t : Ty) (d : Draft) : d.KeepsReading (d.setType b t) := .refl d

theorem declareAs_keeps (ident : Token) (t : Ty) (d : Draft) :
    d.KeepsReading (d.declareAs ident t).2 :=
  d.declare_keeps ident

theorem forEach_keeps {α β : Type} {build : α → Draft → β × Draft}
    (h : ∀ (a : α) (d : Draft), d.KeepsReading (build a d).2) (l : List α) (d : Draft) :
    d.KeepsReading (forEach build l d).2 := by
  induction l generalizing d with
  | nil => exact .refl d
  | cons a l ih => exact (h a d).trans (ih _)

end Draft

theorem Phrase.build_keeps {f : Form} (ph : Phrase f) (d : Draft) :
    d.KeepsReading (ph.build d).2 := by
  induction ph generalizing d with
  | literal t => exact .refl d
  | not mark inner ih => exact ih d
  | group left inner right ih => exact ih d
  | value address ih => exact ih d
  | result c ih => exact ih d
  | name ident => exact d.resolve_keeps ident
  | element base left amount right ihb iha => exact (ihb d).trans (iha _)
  | call mark ident left args right ih => exact (d.resolve_keeps ident).trans (ih _)
  | noArguments | noFurther => exact .refl d
  | arguments first rest ihf ihr => exact (ihf d).trans (ihr _)
  | further comma next rest ihn ihr => exact (ihn d).trans (ihr _)
  | factor e ih | term e ih | plain e ih => exact ih d
  | product left op right ihl ihr | sum left op right ihl ihr | comparison left op right ihl ihr =>
    exact (ihl d).trans (ihr _)

theorem StatementPhrase.build_keeps {f : StatementForm} (s : StatementPhrase f) (after : Position)
    (d : Draft) : d.KeepsReading (s.build after d).2 := by
  induction s generalizing after d with
  | var v => exact d.declareAs_keeps v.ident v.ty
  | array a => exact d.declareAs_keeps a.ident a.ty
  | call c stop => exact c.build_keeps d
  | assign start target mark source stop => exact (target.build_keeps d).trans (source.build_keeps _)
  | branch start condition yes ih => exact (condition.build_keeps d).trans (ih _ _)
  | branchElse start condition yes mark no ihy ihn =>
    exact (condition.build_keeps d).trans ((Draft.openScope_keeps _).trans ((ihy _ _).trans
      ((Draft.closeScope_keeps _).trans ((Draft.openScope_keeps _).trans (ihn _ _)))))
  | loop start condition body ih => exact (condition.build_keeps d).trans (ih _ _)
  | leave start stop => exact .refl d
  | leaveWith start result stop => exact result.build_keeps d
  | block left items right ih => exact ih _ d
  | none => exact .refl d
  | next first rest ihf ihr => exact (ihf _ d).trans (ihr _ _)

theorem ParameterPhrase.build_keeps (p : ParameterPhrase) (d : Draft) :
    d.KeepsReading (p.build d).2 :=
  d.declareAs_keeps p.ident p.ty

theorem FunctionPhrase.build_keeps (f : FunctionPhrase) (d : Draft) :
    d.KeepsReading (f.build d).2 := by
  have hp := Draft.forEach_keeps ParameterPhrase.build_keeps f.params.list
    (d.declare f.ident).2.openScope
  exact (d.declare_keeps f.ident).trans ((Draft.openScope_keeps _).trans (hp.trans
    ((Draft.setType_keeps _ _ _).trans (f.body.build_keeps .start _))))

theorem DeclarationPhrase.build_keeps (x : DeclarationPhrase) (d : Draft) :
    d.KeepsReading (x.build d).2 := by
  cases x with
  | var v => exact d.declareAs_keeps v.ident v.ty
  | array a => exact d.declareAs_keeps a.ident a.ty
  | function f => exact f.build_keeps d

def Form.ResultScoped (env : Env) : (f : Form) → f.Result → Prop
  | .arguments, ns | .further, ns => ∀ n ∈ ns, Node.Scoped .value env n
  | .designator, n => Node.Scoped .address env n
  | .operand, n | .product, n | .sum, n | .comparison, n | .call, n => Node.Scoped .value env n

theorem Parse.literalNode_scoped (t : Token) (tag : Tag) (env : Env) :
    Node.Scoped .value env (literalNode t tag) := by
  unfold literalNode
  split
  · dsimp only
    split
    · exact .int
    · exact .error
  · split
    · exact .float
    · exact .error
  · exact .bool
  · exact .bool

theorem Parse.operatorNode_scoped (op : Kind) {l r : Node} (tag : Tag) {env : Env}
    (hl : Node.Scoped .value env l) (hr : Node.Scoped .value env r) :
    Node.Scoped .value env (operatorNode op l r tag) := by
  unfold operatorNode
  split
  iterate 6 exact .binary hl hr
  all_goals exact .compare hl hr

theorem Draft.Shows.of_scopes {d d' : Draft} {env : Env} (hd : d.Shows env)
    (h : d'.scopes = d.scopes) : d'.Shows env :=
  ⟨h ▸ hd.env_eq, h ▸ hd.bounded⟩

theorem Draft.resolve_quiet {d : Draft} {env : Env} {ident : Token} (hd : d.Shows env)
    (hq : (d.resolve ident).2.diagnostics = []) :
    ∃ b, d.resolve ident = (b, d) ∧ env.lookup (d.symbol b).name = some (d.symbol b) := by
  cases h : env.lookup ident.lexeme with
  | none => exact absurd hq (resolve_unknown hd h)
  | some s =>
    obtain ⟨b, hb, rfl⟩ := resolve_found hd h
    exact ⟨b, hb, by rw [Env.name_of_lookup h, h]⟩

theorem Phrase.build_scoped {f : Form} (ph : Phrase f) {d : Draft} {env : Env} (hd : d.Shows env)
    (hq : (ph.build d).2.diagnostics = []) :
    (ph.build d).2.scopes = d.scopes ∧ f.ResultScoped env (ph.build d).1 := by
  induction ph generalizing d with
  | literal t => exact ⟨rfl, Parse.literalNode_scoped _ _ env⟩
  | not mark inner ih =>
    obtain ⟨hs, hn⟩ := ih hd hq
    exact ⟨hs, .not hn⟩
  | group left inner right ih => exact ih hd hq
  | value address ih =>
    obtain ⟨hs, hn⟩ := ih hd hq
    exact ⟨hs, .dereference hn⟩
  | result c ih => exact ih hd hq
  | name ident =>
    obtain ⟨b, hb, hl⟩ := Draft.resolve_quiet hd hq
    simp only [build, hb]
    exact ⟨rfl, .addressOf hl⟩
  | element base left amount right ihb iha =>
    obtain ⟨hsb, hb⟩ := ihb hd ((amount.build_keeps _).quiet hq)
    obtain ⟨hsa, ha⟩ := iha (hd.of_scopes hsb) hq
    exact ⟨hsa.trans hsb, .index hb ha⟩
  | call mark ident left args right ih =>
    obtain ⟨b, hb, hl⟩ := Draft.resolve_quiet hd ((args.build_keeps _).quiet hq)
    simp only [build, hb] at hq ⊢
    obtain ⟨hs, hargs⟩ := ih hd hq
    exact ⟨hs, .call hl (.arguments hargs)⟩
  | noArguments | noFurther => exact ⟨rfl, List.forall_mem_nil _⟩
  | arguments first rest ihf ihr | further comma first rest ihf ihr =>
    obtain ⟨hsf, hf⟩ := ihf hd ((rest.build_keeps _).quiet hq)
    obtain ⟨hsr, hr⟩ := ihr (hd.of_scopes hsf) hq
    exact ⟨hsr.trans hsf, List.forall_mem_cons.mpr ⟨hf, hr⟩⟩
  | factor e ih | term e ih | plain e ih => exact ih hd hq
  | product left op right ihl ihr | sum left op right ihl ihr | comparison left op right ihl ihr =>
    obtain ⟨hsl, hl⟩ := ihl hd ((right.build_keeps _).quiet hq)
    obtain ⟨hsr, hr⟩ := ihr (hd.of_scopes hsl) hq
    exact ⟨hsr.trans hsl, Parse.operatorNode_scoped _ _ hl hr⟩

namespace Draft

variable {d : Draft} {env : Env} {ident : Token} {t : Ty}

theorem declareAs_new (hd : d.Shows env) (hn : env.IsNew ident.lexeme) :
    (d.declareAs ident t).1 = d.newSymbol ident t ∧
      (d.declareAs ident t).2.Shows (env.declare (d.newSymbol ident t)) := by
  obtain ⟨scopes, hs, htypes, henv, hb⟩ := declare_new hd hn
  simp only [declareAs, hs]
  constructor
  · have ht : scopes.type? ⟨d.scopes.types.size, ident.lexeme⟩ = none := by
      simp [Scopes.type?, htypes]
    simp [Draft.symbol, Draft.setType, Scopes.symbol, Scopes.type?_setType, ht, htypes, newSymbol]
  · have he : env.SettledAt d.scopes.types.size := by
      intro scope hscope s hs hid
      have := hd.id_lt hscope hs
      omega
    exact Shows.setType (d := { d with scopes := scopes }) [] (List.forall_mem_nil _) he
      ⟨henv, hb⟩ t

theorem declareAs_quiet (hd : d.Shows env)
    (hq : (d.declareAs ident t).2.diagnostics = []) :
    env.IsNew (d.declareAs ident t).1.name ∧ (d.declareAs ident t).1.type? = some t ∧
      (d.declareAs ident t).2.Shows (env.declare (d.declareAs ident t).1) := by
  by_cases hn : env.IsNew ident.lexeme
  · obtain ⟨hs, hd'⟩ := declareAs_new (t := t) hd hn
    rw [hs]
    exact ⟨hn, rfl, hd'⟩
  · exact absurd hq (declare_taken hd hn)

end Draft

namespace Node

theorem foldl_after_cons (items : List Node) (scope : List Symbol) (env : Env) :
    ∃ scope', items.foldl after (scope :: env) = scope' :: env := by
  induction items generalizing scope with
  | nil => exact ⟨scope, rfl⟩
  | cons n items ih =>
    have h : ∃ scope', after (scope :: env) n = scope' :: env := by
      unfold after
      split
      · exact ⟨_, rfl⟩
      · exact ⟨_, rfl⟩
    obtain ⟨scope', h⟩ := h
    rw [List.foldl_cons, h]
    exact ih scope'

end Node

def StatementForm.ResultScoped (env : Env) : (f : StatementForm) → f.Result → Prop
  | .statement, n => Node.Scoped .statement env n
  | .statements, ns => Node.InOrder (Node.Scoped .statement) env ns
  | .block, n => Node.Scoped .block env n

def StatementForm.after (env : Env) : (f : StatementForm) → f.Result → Env
  | .statement, n => n.after env
  | .statements, ns => ns.foldl Node.after env
  | .block, n => n.children.foldl Node.after env

theorem Draft.Shows.closeBlock {d : Draft} {scope : List Symbol} {env : Env} {n : Node}
    (hd : d.Shows (StatementForm.after (scope :: env) .block n)) (hne : env ≠ []) :
    d.closeScope.Shows env := by
  obtain ⟨scope', h⟩ := Node.foldl_after_cons n.children scope env
  exact (h ▸ hd : d.Shows (scope' :: env)).closeScope hne

structure Node.Built (role : Role) (env : Env) (r : Node × Draft) : Prop where
  fits : Node.Scoped role env r.1
  shows : r.2.Shows (r.1.after env)
  settled : env.Settled → (r.1.after env).Settled

theorem VariablePhrase.build_scoped (v : VariablePhrase) {d : Draft} {env : Env} (hd : d.Shows env)
    (hq : (v.build d).2.diagnostics = []) :
    Node.Built .declaration env (v.build d) := by
  obtain ⟨hn, ht, hd'⟩ := Draft.declareAs_quiet (t := v.ty) hd hq
  have hsome : (d.declareAs v.ident v.ty).1.type?.isSome := by rw [ht]; rfl
  exact ⟨.var hn hsome, ⟨hd'.env_eq, hd'.bounded⟩, fun he => he.declare hsome⟩

theorem ArrayPhrase.build_scoped (a : ArrayPhrase) {d : Draft} {env : Env} (hd : d.Shows env)
    (hq : (a.build d).2.diagnostics = []) :
    Node.Built .declaration env (a.build d) := by
  obtain ⟨hn, ht, hd'⟩ := Draft.declareAs_quiet (t := a.ty) hd hq
  have hsome : (d.declareAs a.ident a.ty).1.type?.isSome := by rw [ht]; rfl
  exact ⟨.array hn hsome, ⟨hd'.env_eq, hd'.bounded⟩, fun he => he.declare hsome⟩

theorem StatementPhrase.build_scoped {f : StatementForm} (s : StatementPhrase f) {after : Position}
    {d : Draft} {env : Env} (hd : d.Shows env) (hq : (s.build after d).2.diagnostics = []) :
    f.ResultScoped env (s.build after d).1 ∧
      (s.build after d).2.Shows (f.after env (s.build after d).1) := by
  induction s generalizing after d env with
  | var v =>
    obtain ⟨hs, hd', -⟩ := v.build_scoped hd hq
    exact ⟨.local hs nofun, hd'⟩
  | array a =>
    obtain ⟨hs, hd', -⟩ := a.build_scoped hd hq
    exact ⟨.local hs nofun, hd'⟩
  | call c stop =>
    obtain ⟨hs, hc⟩ := c.build_scoped hd hq
    cases c with
    | call mark ident left args right => exact ⟨.result hc, hd.of_scopes hs⟩
  | assign start target mark source stop =>
    obtain ⟨hst, ht⟩ := target.build_scoped hd ((source.build_keeps _).quiet hq)
    obtain ⟨hss, hs⟩ := source.build_scoped (hd.of_scopes hst) hq
    exact ⟨.assign ht hs, hd.of_scopes (hss.trans hst)⟩
  | branch start condition yes ih =>
    have hqc := ((Draft.openScope_keeps _).trans (yes.build_keeps after _)).quiet hq
    obtain ⟨hsc, hc⟩ := condition.build_scoped hd hqc
    obtain ⟨hy, hdy⟩ := ih (hd.of_scopes hsc).openScope hq
    have hd' := hdy.closeBlock hd.ne_nil
    exact ⟨.branch hc hy (.block (by simp)), ⟨hd'.env_eq, hd'.bounded⟩⟩
  | branchElse start condition yes mark no ihy ihn =>
    have hqy := ((Draft.closeScope_keeps _).trans
      ((Draft.openScope_keeps _).trans (no.build_keeps after _))).quiet hq
    have hqc := ((Draft.openScope_keeps _).trans (yes.build_keeps mark.val.pos _)).quiet hqy
    obtain ⟨hsc, hc⟩ := condition.build_scoped hd hqc
    obtain ⟨hy, hdy⟩ := ihy (hd.of_scopes hsc).openScope hqy
    obtain ⟨hn, hdn⟩ := ihn (hdy.closeBlock hd.ne_nil).openScope hq
    have hd' := hdn.closeBlock hd.ne_nil
    exact ⟨.branch hc hy hn, ⟨hd'.env_eq, hd'.bounded⟩⟩
  | loop start condition body ih =>
    have hqc := ((Draft.openScope_keeps _).trans (body.build_keeps after _)).quiet hq
    obtain ⟨hsc, hc⟩ := condition.build_scoped hd hqc
    obtain ⟨hb, hdb⟩ := ih (hd.of_scopes hsc).openScope hq
    have hd' := hdb.closeBlock hd.ne_nil
    exact ⟨.loop hc hb, ⟨hd'.env_eq, hd'.bounded⟩⟩
  | leave start stop => exact ⟨.leave, ⟨hd.env_eq, hd.bounded⟩⟩
  | leaveWith start result stop =>
    obtain ⟨hs, hr⟩ := result.build_scoped hd hq
    exact ⟨.leaveWith hr, hd.of_scopes hs⟩
  | block left items right ih =>
    obtain ⟨hi, hd'⟩ := ih hd hq
    exact ⟨.block (Node.inOrder_iff.mp hi), ⟨hd'.env_eq, hd'.bounded⟩⟩
  | none => exact ⟨trivial, hd⟩
  | next first rest ihf ihr =>
    obtain ⟨hf, hdf⟩ := ihf hd ((rest.build_keeps _ _).quiet hq)
    obtain ⟨hr, hdr⟩ := ihr hdf hq
    exact ⟨⟨hf, hr⟩, hdr⟩

theorem ParameterPhrase.forEach_scoped (l : List ParameterPhrase) {d : Draft}
    {scope : List Symbol} {env : Env} (hd : d.Shows (scope :: env))
    (hn : (scope.map Symbol.name).Nodup)
    (hq : (Draft.forEach build l d).2.diagnostics = []) :
    (Draft.forEach build l d).2.Shows ((scope ++ (Draft.forEach build l d).1) :: env) ∧
      (∀ p ∈ (Draft.forEach build l d).1, ∃ t : Ty, t.IsNamed ∧ p.type? = some t) ∧
      ((scope ++ (Draft.forEach build l d).1).map Symbol.name).Nodup := by
  induction l generalizing d scope with
  | nil => exact ⟨by simpa [Draft.forEach] using hd, nofun, by simpa [Draft.forEach] using hn⟩
  | cons p l ih =>
    obtain ⟨hnew, ht, hd'⟩ := Draft.declareAs_quiet (t := p.ty) hd
      ((Draft.forEach_keeps build_keeps l _).quiet hq)
    have hn' : ((scope ++ [(p.build d).1]).map Symbol.name).Nodup := by
      rw [List.map_append, List.map_singleton, List.nodup_append]
      refine ⟨hn, by simp, fun a ha b hb => ?_⟩
      obtain ⟨u, hu, rfl⟩ := List.mem_map.mp ha
      rw [List.mem_singleton.mp hb]
      exact hnew u hu
    obtain ⟨hd'', hts, hns⟩ := ih hd' hn' hq
    rw [List.append_assoc] at hd'' hns
    exact ⟨hd'', List.forall_mem_cons.mpr ⟨⟨p.ty, ⟨_, rfl⟩, ht⟩, hts⟩, hns⟩

theorem FunctionPhrase.build_scoped (f : FunctionPhrase) {d : Draft} {env : Env} (hd : d.Shows env)
    (he : env.Settled) (hq : (f.build d).2.diagnostics = []) :
    Node.Built .declaration env (f.build d) := by
  by_cases hn : env.IsNew f.ident.val.lexeme
  · obtain ⟨scopes, hs, -, henv, hb⟩ := Draft.declare_new hd hn
    simp only [FunctionPhrase.build, hs] at hq ⊢
    have hqp := ((Draft.setType_keeps _ _ _).trans (f.body.build_keeps .start _)).quiet hq
    -- The parameters are declared while the function still lacks its type.
    have hd₁ : Draft.Shows { d with scopes := scopes } _ := ⟨henv, hb⟩
    obtain ⟨hd₂, hts, hns⟩ :=
      ParameterPhrase.forEach_scoped f.params.list hd₁.openScope List.nodup_nil hqp
    generalize Draft.forEach ParameterPhrase.build f.params.list
      (Draft.openScope { d with scopes := scopes }) = r at hq hqp hd₂ hts hns ⊢
    have hr : Env.Settled [r.1] := by
      intro scope hscope p hp
      rw [List.mem_singleton.mp hscope] at hp
      obtain ⟨t, -, ht⟩ := hts p hp
      rw [ht]
      rfl
    have hd₃ := Draft.Shows.setType [r.1] (hr.at _) (he.at _) hd₂
      (.func (r.1.map Symbol.ty) f.result)
    obtain ⟨hbody, hd₄⟩ := f.body.build_scoped hd₃ hq
    have hd₅ := hd₄.closeBlock (by simp [Env.declare])
    have hsym := hd₅.symbol_eq List.mem_cons_self (List.mem_append_right _ List.mem_cons_self)
    simp only [Draft.node, hsym]
    have head : Node.Head ⟨d.scopes.types.size, f.ident.val.lexeme,
        some (.func (r.1.map Symbol.ty) f.result)⟩ r.1 :=
      ⟨⟨f.result, ⟨_, rfl⟩, rfl⟩, hts, hns⟩
    exact ⟨.function hn head hbody, ⟨hd₅.env_eq, hd₅.bounded⟩, fun he => he.declare rfl⟩
  · refine absurd ?_ (Draft.declare_taken hd hn)
    have hqp := ((Draft.setType_keeps _ _ _).trans (f.body.build_keeps .start _)).quiet hq
    exact ((Draft.openScope_keeps _).trans
      (Draft.forEach_keeps ParameterPhrase.build_keeps f.params.list _)).quiet hqp

theorem DeclarationPhrase.build_scoped (x : DeclarationPhrase) {d : Draft} {env : Env}
    (hd : d.Shows env) (he : env.Settled) (hq : (x.build d).2.diagnostics = []) :
    Node.Built .declaration env (x.build d) := by
  cases x with
  | var v => exact v.build_scoped hd hq
  | array a => exact a.build_scoped hd hq
  | function f => exact f.build_scoped hd he hq

def Env.builtins : Env := [Builtin.all.mapIdx fun i b => ⟨i, b.name, some b.ty⟩]

theorem Draft.initial_shows : Draft.initial.Shows .builtins := by
  constructor
  · rfl
  · unfold Scopes.Bounded
    decide

theorem DeclarationPhrase.forEach_scoped (l : List DeclarationPhrase) {d : Draft} {env : Env}
    (hd : d.Shows env) (he : env.Settled)
    (hq : (Draft.forEach build l d).2.diagnostics = []) :
    Node.InOrder (Node.Scoped .declaration) env (Draft.forEach build l d).1 := by
  induction l generalizing d env with
  | nil => trivial
  | cons x l ih =>
    obtain ⟨hs, hd', he'⟩ :=
      x.build_scoped hd he ((Draft.forEach_keeps build_keeps l _).quiet hq)
    exact ⟨hs, ih hd' (he' he) hq⟩

/-- A program that is built without a report is scoped. -/
theorem ProgramPhrase.build_scoped (p : ProgramPhrase)
    (hq : (p.build .initial).2.diagnostics = []) :
    Node.Scoped .program .builtins (p.build .initial).1 := by
  have he : Env.Settled .builtins := by
    unfold Env.Settled
    decide
  exact .program (Node.inOrder_iff.mp
    (DeclarationPhrase.forEach_scoped p.items Draft.initial_shows he hq))

end Crux
