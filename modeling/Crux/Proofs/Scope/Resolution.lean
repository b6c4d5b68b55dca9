import Crux.Proofs.Grammar.Accepts
import Crux.Proofs.Scope.Resolver

namespace Crux

namespace Draft

/-- Between the drafts, the names at some of the tokens are declared and looked up as the events
say. -/
structure Follows (d d' : Draft) (tokens : List Token) (events : List Event) : Prop where
  told : ∃ told : List (Token × Event), told.map Prod.snd = events ∧
    (told.map Prod.fst).Sublist tokens ∧
    (∀ p ∈ told, p.1.kind = .identifier ∧ p.1.lexeme = p.2.symbol.name) ∧
    ∃ xs, d'.diagnostics = d.diagnostics ++ xs ∧
      xs.map Diagnostic.trouble? = (told.filterMap fun p => p.2.trouble? p.1).map some
  bound : ∀ s u, .use s (some u) ∈ events → s = u

variable {d d' d'' : Draft} {ts us : List Token} {es fs : List Event} {env : Env}

theorem Follows.refl (d : Draft) (ts : List Token) : d.Follows d ts [] :=
  ⟨⟨[], rfl, List.nil_sublist _, nofun, [], by simp, rfl⟩, nofun⟩

theorem Follows.trans (h : d.Follows d' ts es) (h' : d'.Follows d'' us fs) :
    d.Follows d'' (ts ++ us) (es ++ fs) := by
  obtain ⟨⟨told, rfl, hs, hn, xs, hd, hx⟩, hb⟩ := h
  obtain ⟨⟨told', rfl, hs', hn', xs', hd', hx'⟩, hb'⟩ := h'
  refine ⟨⟨told ++ told', by simp, by simpa using hs.append hs', List.forall_mem_append.mpr ⟨hn, hn'⟩,
    xs ++ xs', by rw [hd', hd, List.append_assoc], ?_⟩, fun s u hm => ?_⟩
  · rw [List.map_append, hx, hx', List.filterMap_append, List.map_append]
  · obtain hm | hm := List.mem_append.mp hm
    · exact hb s u hm
    · exact hb' s u hm

theorem Follows.mono (h : d.Follows d' ts es) (hs : ts.Sublist us) : d.Follows d' us es := by
  obtain ⟨⟨told, he, ht, hrest⟩, hb⟩ := h
  exact ⟨⟨told, he, ht.trans hs, hrest⟩, hb⟩

theorem Follows.of_diagnostics {c c' : Draft} (h : d.Follows d' ts es)
    (hc : d.diagnostics = c.diagnostics) (hc' : c'.diagnostics = d'.diagnostics) :
    c.Follows c' ts es := by
  obtain ⟨⟨told, he, ht, hn, xs, hd, hx⟩, hb⟩ := h
  exact ⟨⟨told, he, ht, hn, xs, by rw [hc', hd, hc], hx⟩, hb⟩

theorem Follows.occurrence (ident : TokenOf Kind.identifier) {e : Event} (xs : List Diagnostic)
    (hn : e.symbol.name = ident.val.lexeme) (hb : ∀ s u, e = .use s (some u) → s = u)
    (hx : xs.map Diagnostic.trouble? = (e.trouble? ident.val).toList.map some)
    (h : d'.diagnostics = d.diagnostics ++ xs) : d.Follows d' [ident.val] [e] := by
  refine ⟨⟨[(ident.val, e)], rfl, .refl _, List.forall_mem_singleton.mpr ⟨ident.kind_eq, hn.symm⟩, xs,
    h, ?_⟩, fun s u hm => hb s u (List.mem_singleton.mp hm).symm⟩
  rw [hx]
  cases he : e.trouble? ident.val <;> simp [he]

theorem troubled_shows (hd : d.Shows env) (name : String) (trouble : Scopes → Diagnostic) :
    (d.troubled name trouble).2.Shows env :=
  ⟨(Scopes.env_fresh hd.bounded name _).trans hd.env_eq, hd.bounded.fresh name _⟩

theorem resolve_follows (hd : d.Shows env) (ident : TokenOf Kind.identifier) {b : Binding}
    (hb : d.resolve ident.val = (b, d')) :
    d'.Shows env ∧ d.Follows d' [ident.val] [.use (d'.symbol b) (env.lookup b.name)] := by
  cases h : env.lookup ident.val.lexeme with
  | some s =>
    obtain ⟨c, hc, rfl⟩ := resolve_found hd h
    obtain ⟨rfl, rfl⟩ := Prod.mk.inj (hb.symm.trans hc)
    have hname : b.name = ident.val.lexeme := Env.name_of_lookup h
    rw [hname, h]
    refine ⟨hd, .occurrence ident [] hname (fun _ _ e => ?_) rfl (by simp)⟩
    cases e
    rfl
  | none =>
    rw [resolve, Scopes.resolve_none (hd.env_eq ▸ h)] at hb
    obtain ⟨rfl, rfl⟩ := Prod.mk.inj hb
    show _ ∧ Follows d _ _ [.use _ (env.lookup ident.val.lexeme)]
    rw [h]
    exact ⟨troubled_shows hd ident.val.lexeme (.unresolved ident.val.pos ident.val.lexeme),
      .occurrence ident _ rfl (fun _ _ e => by cases e) rfl rfl⟩

theorem declare_follows (hd : d.Shows env) (ident : TokenOf Kind.identifier) {s : Symbol}
    (hs : s.name = ident.val.lexeme) :
    d.Follows (d.declare ident.val).2 [ident.val] (env.declarations [s]) := by
  by_cases hn : env.IsNew s.name
  · obtain ⟨scopes, h, -⟩ := declare_new hd (hs ▸ hn)
    rw [h]
    exact .occurrence ident [] hs (fun _ _ e => by cases e) (by simp [hn, Event.trouble?]) (by simp)
  · have h : d.declare ident.val =
        d.troubled ident.val.lexeme (.redeclared ident.val.pos ident.val.lexeme) := by
      rw [declare, Scopes.declare_taken (hd.env_eq ▸ hs ▸ hn)]
    rw [h]
    exact .occurrence ident [_] hs (fun _ _ e => by cases e)
      (by simp [Event.trouble?, Diagnostic.trouble?, ← hs, hn]) rfl

theorem declareAs_taken (hd : d.Shows env) {ident : Token} (hn : ¬ env.IsNew ident.lexeme) (t : Ty) :
    (d.declareAs ident t).2.Shows env ∧ (d.declareAs ident t).1.name = ident.lexeme ∧
      (d.declareAs ident t).1.type?.isSome := by
  have h : d.declare ident = d.troubled ident.lexeme (.redeclared ident.pos ident.lexeme) := by
    rw [declare, Scopes.declare_taken (hd.env_eq ▸ hn)]
  have ht : ((d.troubled ident.lexeme (.redeclared ident.pos ident.lexeme)).2.scopes.type?
      (d.troubled ident.lexeme (.redeclared ident.pos ident.lexeme)).1).isSome := by
    simp [troubled, Scopes.placeholder, Scopes.fresh, Scopes.type?]
  simp only [declareAs, h]
  have hs := troubled_shows hd ident.lexeme (.redeclared ident.pos ident.lexeme)
  simp only [setType, Scopes.setType, ht, if_true]
  exact ⟨hs, rfl, ht⟩

theorem declareAs_follows (hd : d.Shows env) (ident : TokenOf Kind.identifier) (t : Ty) :
    let r := d.declareAs ident.val t
    r.2.Shows (env.receive r.1) ∧ r.1.type?.isSome ∧
      d.Follows r.2 [ident.val] (env.declarations [r.1]) := by
  by_cases hn : env.IsNew ident.val.lexeme
  · obtain ⟨hs, hd'⟩ := declareAs_new (t := t) hd hn
    have hname : (d.declareAs ident.val t).1.name = ident.val.lexeme := by rw [hs]; rfl
    refine ⟨?_, by rw [hs]; rfl, (declare_follows hd ident hname).of_diagnostics rfl rfl⟩
    rw [Env.receive_new (hname ▸ hn), hs]
    exact hd'
  · obtain ⟨hd', hname, ht⟩ := declareAs_taken hd hn t
    refine ⟨?_, ht, (declare_follows hd ident hname).of_diagnostics rfl rfl⟩
    rw [Env.receive_taken (hname ▸ hn)]
    exact hd'

end Draft

namespace Node

variable {env : Env} {n : Node}

theorem leaves_of_binds (h : n.binds = none) : n.leaves env = env := by
  rw [leaves, h, Option.elim_none]

end Node

def Form.events (env : Env) : (f : Form) → f.Result → List Event
  | .arguments, ns | .further, ns => Node.rowEvents env ns
  | .designator, n | .operand, n | .product, n | .sum, n | .comparison, n | .call, n => n.events env

def Form.BindsNothing : (f : Form) → f.Result → Prop
  | .arguments, _ | .further, _ => True
  | .designator, n | .operand, n | .product, n | .sum, n | .comparison, n | .call, n => n.binds = none

theorem Parse.operatorNode_events (op : Kind) (l r : Node) (tag : Tag) (env : Env) :
    (operatorNode op l r tag).events env = l.events env ++ r.events env ∧
      (operatorNode op l r tag).binds = none := by
  unfold operatorNode
  split <;> exact ⟨by simp only [Node.events], rfl⟩

theorem Parse.literalNode_events (t : Token) (tag : Tag) (env : Env) :
    (literalNode t tag).events env = [] ∧ (literalNode t tag).binds = none := by
  unfold literalNode
  split
  · dsimp only
    split <;> exact ⟨by simp only [Node.events], rfl⟩
  · split <;> exact ⟨by simp only [Node.events], rfl⟩
  · exact ⟨by simp only [Node.events], rfl⟩
  · exact ⟨by simp only [Node.events], rfl⟩

theorem Phrase.build_follows {f : Form} (ph : Phrase f) {d : Draft} {env : Env} (hd : d.Shows env) :
    (ph.build d).2.Shows env ∧ f.BindsNothing (ph.build d).1 ∧
      d.Follows (ph.build d).2 ph.tokens (f.events env (ph.build d).1) := by
  induction ph generalizing d with
  | literal t =>
    obtain ⟨he, hb⟩ := Parse.literalNode_events t ⟨d.nextId, t.val.pos⟩ env
    refine ⟨hd.of_scopes rfl, hb, ?_⟩
    show Draft.Follows d _ _ (Node.events env (Parse.literalNode t ⟨d.nextId, t.val.pos⟩))
    rw [he]
    exact (Draft.Follows.refl d _).of_diagnostics rfl rfl
  | not mark inner ih =>
    obtain ⟨hs, -, hf⟩ := ih hd
    exact ⟨hs.of_scopes rfl, rfl, (hf.mono (List.sublist_cons_self _ _)).of_diagnostics rfl rfl⟩
  | group left inner right ih =>
    obtain ⟨hs, hb, hf⟩ := ih hd
    exact ⟨hs, hb, hf.mono ((List.sublist_append_left _ _).cons _)⟩
  | value address ih =>
    obtain ⟨hs, -, hf⟩ := ih hd
    exact ⟨hs.of_scopes rfl, rfl, hf.of_diagnostics rfl rfl⟩
  | result c ih => exact ih hd
  | name ident =>
    obtain ⟨hs, hf⟩ := Draft.resolve_follows hd ident rfl
    exact ⟨hs.of_scopes rfl, rfl, hf.of_diagnostics rfl rfl⟩
  | element base left amount right ihb iha =>
    obtain ⟨hsb, -, hfb⟩ := ihb hd
    obtain ⟨hsa, -, hfa⟩ := iha hsb
    refine ⟨hsa.of_scopes rfl, rfl, ((hfb.trans hfa).mono ?_).of_diagnostics rfl rfl⟩
    exact (List.Sublist.refl _).append ((List.sublist_append_left _ _).cons _)
  | call mark ident left args right ih =>
    obtain ⟨hs, hf⟩ := Draft.resolve_follows hd ident rfl
    obtain ⟨hsa, -, hfa⟩ := ih hs
    refine ⟨hsa.of_scopes rfl, rfl, ((hf.trans hfa).mono ?_).of_diagnostics rfl rfl⟩
    exact (((List.sublist_append_left _ _).cons _).cons_cons _).cons _
  | noArguments | noFurther => exact ⟨hd, trivial, .refl d _⟩
  | arguments first rest ihf ihr | further comma first rest ihf ihr =>
    obtain ⟨hsf, hb, hff⟩ := ihf hd
    obtain ⟨hsr, -, hfr⟩ := ihr hsf
    refine ⟨hsr, trivial, ?_⟩
    show Draft.Follows d _ _ (Node.rowEvents env (_ :: _))
    rw [Node.rowEvents, Node.leaves_of_binds hb]
    exact (hff.trans hfr).mono (by simp [tokens])
  | factor e ih | term e ih | plain e ih => exact ih hd
  | product left op right ihl ihr | sum left op right ihl ihr | comparison left op right ihl ihr =>
    obtain ⟨hsl, -, hfl⟩ := ihl hd
    obtain ⟨hsr, -, hfr⟩ := ihr hsl
    obtain ⟨he, hb⟩ := Parse.operatorNode_events op.val.kind (left.build d).1
      (right.build (left.build d).2).1 ⟨(right.build (left.build d).2).2.nextId, op.val.pos⟩ env
    refine ⟨hsr.of_scopes rfl, hb, ?_⟩
    show Draft.Follows d _ _ (Node.events env (Parse.operatorNode _ _ _ _))
    rw [he]
    exact ((hfl.trans hfr).mono ((List.Sublist.refl _).append
      (List.sublist_cons_self _ _))).of_diagnostics rfl rfl

namespace StatementForm

def events (env : Env) : (f : StatementForm) → f.Result → List Event
  | .statement, n | .block, n => n.events env
  | .statements, ns => Node.rowEvents env ns

def leaves (env : Env) : (f : StatementForm) → f.Result → Env
  | .statement, n => n.leaves env
  | .statements, ns => ns.foldl Node.leaves env
  | .block, n => n.children.foldl Node.leaves env

end StatementForm

theorem Env.receive_cons (scope : List Symbol) (s : Symbol) :
    ∃ scope', ∀ env : Env, Env.receive (scope :: env) s = scope' :: env := by
  by_cases h : ∀ u ∈ scope, u.name ≠ s.name
  · exact ⟨scope ++ [s], fun env => if_pos h⟩
  · exact ⟨scope, fun env => if_neg h⟩

theorem Node.foldl_leaves_cons (items : List Node) (scope : List Symbol) (env : Env) :
    ∃ scope', items.foldl leaves (scope :: env) = scope' :: env := by
  induction items generalizing scope with
  | nil => exact ⟨scope, rfl⟩
  | cons n items ih =>
    have h : ∃ scope', leaves (scope :: env) n = scope' :: env := by
      unfold leaves
      cases n.binds with
      | none => exact ⟨scope, rfl⟩
      | some s =>
        obtain ⟨scope', h⟩ := Env.receive_cons scope s
        exact ⟨scope', h env⟩
    obtain ⟨scope', h⟩ := h
    rw [List.foldl_cons, h]
    exact ih scope'

theorem Draft.Shows.leaveBlock {d : Draft} {scope : List Symbol} {env : Env} {n : Node}
    (hd : d.Shows (StatementForm.leaves (scope :: env) .block n)) (hne : env ≠ []) :
    d.closeScope.Shows env := by
  obtain ⟨scope', h⟩ := Node.foldl_leaves_cons n.children scope env
  exact (h ▸ hd : d.Shows (scope' :: env)).closeScope hne

structure Node.Resolved (env : Env) (d : Draft) (tokens : List Token) (r : Node × Draft) : Prop where
  shows : r.2.Shows (r.1.leaves env)
  follows : d.Follows r.2 tokens (r.1.events env)
  settled : env.Settled → (r.1.leaves env).Settled

theorem Env.Settled.receive {env : Env} (h : env.Settled) {s : Symbol} (hs : s.type?.isSome) :
    (env.receive s).Settled := by
  unfold Env.receive
  split
  · exact h.declare hs
  · exact h

theorem Draft.declaration_resolved {d : Draft} {env : Env} (hd : d.Shows env)
    (ident : TokenOf Kind.identifier) (t : Ty) (pos : Position) (declaration : Tag → Symbol → Node)
    (he : ∀ g s, (declaration g s).events env = env.declarations [s])
    (hb : ∀ g s, (declaration g s).binds = some s) {tokens : List Token}
    (ht : [ident.val].Sublist tokens) :
    Node.Resolved env d tokens
      ((d.declareAs ident.val t).2.node pos (declaration · (d.declareAs ident.val t).1)) := by
  obtain ⟨hs, htype, hf⟩ := Draft.declareAs_follows hd ident t
  refine ⟨?_, ?_, fun h => ?_⟩
  · simp only [node, Node.leaves, hb]
    exact hs.of_scopes rfl
  · simp only [node, he]
    exact (hf.mono ht).of_diagnostics rfl rfl
  · simp only [node, Node.leaves, hb]
    exact h.receive htype

theorem VariablePhrase.build_resolved (v : VariablePhrase) {d : Draft} {env : Env}
    (hd : d.Shows env) : Node.Resolved env d v.tokens (v.build d) :=
  Draft.declaration_resolved hd v.ident v.ty _ .var (fun _ _ => rfl) (fun _ _ => rfl)
    (by simp [tokens])

theorem ArrayPhrase.build_resolved (a : ArrayPhrase) {d : Draft} {env : Env} (hd : d.Shows env) :
    Node.Resolved env d a.tokens (a.build d) :=
  Draft.declaration_resolved hd a.ident a.ty _ .array (fun _ _ => rfl) (fun _ _ => rfl)
    (by simp [tokens])

theorem StatementPhrase.build_resolved {f : StatementForm} (s : StatementPhrase f) {after : Position}
    {d : Draft} {env : Env} (hd : d.Shows env) :
    (s.build after d).2.Shows (f.leaves env (s.build after d).1) ∧
      d.Follows (s.build after d).2 s.tokens (f.events env (s.build after d).1) := by
  induction s generalizing after d env with
  | var v => exact ⟨(v.build_resolved hd).shows, (v.build_resolved hd).follows⟩
  | array a => exact ⟨(a.build_resolved hd).shows, (a.build_resolved hd).follows⟩
  | call c stop =>
    obtain ⟨hs, hb, hf⟩ := c.build_follows hd
    refine ⟨?_, hf.mono (List.sublist_append_left _ _)⟩
    show Draft.Shows _ (Node.leaves env (c.build d).1)
    rw [Node.leaves_of_binds hb]
    exact hs
  | assign start target mark source stop =>
    obtain ⟨hst, -, hft⟩ := target.build_follows hd
    obtain ⟨hss, -, hfs⟩ := source.build_follows hst
    refine ⟨hss.of_scopes rfl, ((hft.trans hfs).mono ?_).of_diagnostics rfl rfl⟩
    exact ((List.Sublist.refl _).append ((List.sublist_append_left _ _).cons _)).cons _
  | branch start condition yes ih =>
    obtain ⟨hsc, -, hfc⟩ := condition.build_follows hd
    obtain ⟨hsy, hfy⟩ := ih hsc.openScope
    refine ⟨(hsy.leaveBlock hd.ne_nil).of_scopes rfl, ?_⟩
    have hf := (hfc.trans (hfy.of_diagnostics rfl rfl)).trans (.refl _ [])
    exact (hf.mono (by simp [tokens])).of_diagnostics rfl rfl
  | branchElse start condition yes mark no ihy ihn =>
    obtain ⟨hsc, -, hfc⟩ := condition.build_follows hd
    obtain ⟨hsy, hfy⟩ := ihy hsc.openScope
    obtain ⟨hsn, hfn⟩ := ihn (hsy.leaveBlock hd.ne_nil).openScope
    refine ⟨(hsn.leaveBlock hd.ne_nil).of_scopes rfl, ?_⟩
    have hf := (hfc.trans (hfy.of_diagnostics rfl rfl)).trans (hfn.of_diagnostics rfl rfl)
    refine (hf.mono ?_).of_diagnostics rfl rfl
    rw [List.append_assoc]
    exact ((List.Sublist.refl _).append ((List.Sublist.refl _).append
      (List.sublist_cons_self _ _))).cons _
  | loop start condition body ih =>
    obtain ⟨hsc, -, hfc⟩ := condition.build_follows hd
    obtain ⟨hsb, hfb⟩ := ih hsc.openScope
    refine ⟨(hsb.leaveBlock hd.ne_nil).of_scopes rfl, ?_⟩
    exact ((hfc.trans (hfb.of_diagnostics rfl rfl)).mono (List.sublist_cons_self _ _)).of_diagnostics
      rfl rfl
  | leave start stop => exact ⟨hd.of_scopes rfl, (Draft.Follows.refl d _).of_diagnostics rfl rfl⟩
  | leaveWith start result stop =>
    obtain ⟨hs, -, hf⟩ := result.build_follows hd
    exact ⟨hs.of_scopes rfl, (hf.mono ((List.sublist_append_left _ _).cons _)).of_diagnostics rfl rfl⟩
  | block left items right ih =>
    obtain ⟨hs, hf⟩ := ih hd
    exact ⟨hs.of_scopes rfl, (hf.mono ((List.sublist_append_left _ _).cons _)).of_diagnostics rfl rfl⟩
  | none => exact ⟨hd, .refl d _⟩
  | next first rest ihf ihr =>
    obtain ⟨hsf, hff⟩ := ihf hd
    obtain ⟨hsr, hfr⟩ := ihr hsf
    exact ⟨hsr, hff.trans hfr⟩

theorem Env.declarations_cons (params : List Symbol) (scope : List Symbol) :
    ∃ scope', (∀ env : Env, params.foldl Env.receive (scope :: env) = scope' :: env) ∧
      ∀ env env' : Env, declarations (scope :: env) params = declarations (scope :: env') params := by
  induction params generalizing scope with
  | nil => exact ⟨scope, fun _ => rfl, fun _ _ => rfl⟩
  | cons p params ih =>
    obtain ⟨scope₁, h₁⟩ := Env.receive_cons scope p
    obtain ⟨scope₂, h₂, hd⟩ := ih scope₁
    refine ⟨scope₂, fun env => by rw [List.foldl_cons, h₁, h₂], fun env env' => ?_⟩
    rw [declarations, declarations, h₁, h₁, hd env env']
    rfl

theorem ParameterPhrase.forEach_resolved (l : List ParameterPhrase) {d : Draft} {env : Env}
    (hd : d.Shows env) :
    let r := Draft.forEach build l d
    r.2.Shows (r.1.foldl Env.receive env) ∧ d.Follows r.2 (l.flatMap tokens) (env.declarations r.1) ∧
      ∀ p ∈ r.1, p.type?.isSome := by
  induction l generalizing d env with
  | nil => exact ⟨hd, .refl d _, nofun⟩
  | cons p l ih =>
    obtain ⟨hs, ht, hf⟩ := Draft.declareAs_follows hd p.ident p.ty
    obtain ⟨hs', hf', hts⟩ := ih hs
    refine ⟨hs', ?_, List.forall_mem_cons.mpr ⟨ht, hts⟩⟩
    exact (hf.mono (by simp [tokens])).trans hf'

theorem ParametersPhrase.sublist_tokens (p : ParametersPhrase) :
    (p.list.flatMap ParameterPhrase.tokens).Sublist p.tokens := by
  cases p with
  | none => exact .refl _
  | some first rest =>
    refine (List.Sublist.refl _).append ?_
    induction rest with
    | nil => exact .refl _
    | cons x rest ih => exact ((List.Sublist.refl x.2.tokens).append ih).cons _

theorem Env.Settled.foldl_receive {env : Env} (h : env.Settled) {params : List Symbol}
    (hp : ∀ p ∈ params, p.type?.isSome) : (params.foldl Env.receive env).Settled := by
  induction params generalizing env with
  | nil => exact h
  | cons p params ih =>
    obtain ⟨ht, hts⟩ := List.forall_mem_cons.mp hp
    exact ih (h.receive ht) hts

theorem Draft.Shows.setType_settled {d : Draft} {env : Env} (hd : d.Shows env) (he : env.Settled)
    (b : Binding) (t : Ty) : (d.setType b t).Shows env := by
  refine ⟨?_, hd.bounded.setType b t⟩
  show (d.scopes.setType b t).env = env
  rw [Scopes.env_setType hd.bounded, hd.env_eq, (he.at b.id).settle]

namespace FunctionPhrase

/-- The parameters and the body of a function whose name has been declared: around them, `outer`
becomes `outer'` when the function gets its type. -/
theorem inside_resolved (f : FunctionPhrase) {d : Draft} {b : Binding} {outer outer' : Env}
    (hd : d.Shows outer) (hne : outer' ≠ []) :
    let params := Draft.forEach ParameterPhrase.build f.params.list d.openScope
    let typed := params.2.setType b (.func (params.1.map Symbol.ty) f.result)
    let body := f.body.build .start typed
    (∀ scope, Env.Settled [scope] → params.2.Shows (scope :: outer) →
      typed.Shows (scope :: outer')) →
    body.2.closeScope.Shows outer' ∧
      d.Follows body.2.closeScope (f.params.list.flatMap ParameterPhrase.tokens ++ f.body.tokens)
        (Env.declarations ([] :: outer') params.1 ++
          body.1.events (params.1.foldl Env.receive ([] :: outer'))) := by
  intro params typed body htype
  obtain ⟨hs, hf, ht⟩ := ParameterPhrase.forEach_resolved f.params.list hd.openScope
  obtain ⟨scope, hscope, hdecl⟩ := Env.declarations_cons params.1 []
  have hsettled : Env.Settled [scope] := by
    rw [← hscope []]
    exact Env.Settled.foldl_receive (by simp [Env.Settled]) ht
  rw [hscope] at hs ⊢
  obtain ⟨hsb, hfb⟩ := f.body.build_resolved (htype scope hsettled hs)
  refine ⟨hsb.leaveBlock hne, ?_⟩
  rw [hdecl outer' outer]
  have hfb' : params.2.Follows body.2 _ _ := hfb.of_diagnostics rfl rfl
  exact (hf.trans hfb').of_diagnostics rfl rfl

/-- The name of a function that is new gets its type behind the parameters; one that is taken leaves
the scope as it is. -/
theorem name_resolved (f : FunctionPhrase) {d d' : Draft} {b : Binding} {env : Env}
    (hd : d.Shows env) (he : env.Settled) (hb : d.declare f.ident.val = (b, d')) :
    let params := Draft.forEach ParameterPhrase.build f.params.list d'.openScope
    let typed := params.2.setType b (.func (params.1.map Symbol.ty) f.result)
    let body := f.body.build .start typed
    let s := body.2.closeScope.symbol b
    s.name = f.ident.val.lexeme ∧ (env.receive s).Settled ∧ body.2.closeScope.Shows (env.receive s) ∧
      d'.Follows body.2.closeScope (f.params.list.flatMap ParameterPhrase.tokens ++ f.body.tokens)
        (Env.declarations ([] :: env.receive s) params.1 ++
          body.1.events (params.1.foldl Env.receive ([] :: env.receive s))) := by
  intro params typed body s
  by_cases hn : env.IsNew f.ident.val.lexeme
  · obtain ⟨scopes, h, -, henv, hbound⟩ := Draft.declare_new hd hn
    obtain ⟨rfl, rfl⟩ := Prod.mk.inj (hb.symm.trans h)
    have hd' : Draft.Shows { d with scopes := scopes } _ := ⟨henv, hbound⟩
    obtain ⟨hs, hf⟩ := f.inside_resolved hd' (by simp [Env.declare]) fun scope hscope hs =>
      Draft.Shows.setType [scope] (hscope.at _) (he.at _) hs _
    have hsym : s = _ :=
      hs.symbol_eq List.mem_cons_self (List.mem_append_right _ List.mem_cons_self)
    have hreceive : env.receive s = env.declare s := Env.receive_new hn
    rw [hreceive, hsym]
    exact ⟨rfl, he.declare rfl, hs, hf⟩
  · rw [Draft.declare, Scopes.declare_taken (hd.env_eq ▸ hn)] at hb
    obtain ⟨rfl, rfl⟩ := Prod.mk.inj hb
    have hd' := Draft.troubled_shows hd f.ident.val.lexeme
      (.redeclared f.ident.val.pos f.ident.val.lexeme)
    have hreceive : env.receive s = env := Env.receive_taken hn
    obtain ⟨hs, hf⟩ := f.inside_resolved hd' hd.ne_nil fun scope hscope hs =>
      hs.setType_settled (List.forall_mem_cons.mpr ⟨hscope scope List.mem_cons_self, he⟩) _ _
    rw [hreceive]
    exact ⟨rfl, he, hs, hf⟩

theorem build_resolved (f : FunctionPhrase) {d : Draft} {env : Env}
    (hd : d.Shows env) (he : env.Settled) : Node.Resolved env d f.tokens (f.build d) := by
  have hts : ([f.ident.val] ++ (f.params.list.flatMap ParameterPhrase.tokens ++
      f.body.tokens)).Sublist f.tokens :=
    (((f.params.sublist_tokens.append (((List.sublist_cons_self _ _).cons _).cons _)).cons
      _).cons_cons _).cons _
  obtain ⟨hname, hset, hs, hf⟩ := f.name_resolved hd he rfl
  have h := ((Draft.declare_follows hd f.ident hname).trans hf).mono hts
  rw [← List.append_assoc] at h
  exact ⟨hs.of_scopes rfl, h.of_diagnostics rfl rfl, fun _ => hset⟩

end FunctionPhrase

theorem DeclarationPhrase.build_resolved (x : DeclarationPhrase) {d : Draft} {env : Env}
    (hd : d.Shows env) (he : env.Settled) : Node.Resolved env d x.tokens (x.build d) := by
  cases x with
  | var v => exact v.build_resolved hd
  | array a => exact a.build_resolved hd
  | function f => exact f.build_resolved hd he

theorem DeclarationPhrase.forEach_resolved (l : List DeclarationPhrase) {d : Draft} {env : Env}
    (hd : d.Shows env) (he : env.Settled) :
    d.Follows (Draft.forEach build l d).2 (l.flatMap tokens)
      (Node.rowEvents env (Draft.forEach build l d).1) := by
  induction l generalizing d env with
  | nil => exact .refl d _
  | cons x l ih =>
    obtain ⟨hs, hf, he'⟩ := x.build_resolved hd he
    exact hf.trans (ih hs (he' he))

theorem ProgramPhrase.build_resolved (p : ProgramPhrase) :
    Draft.initial.Follows (p.build .initial).2 p.tokens ((p.build .initial).1.events .builtins) := by
  have he : Env.Settled .builtins := by
    unfold Env.Settled
    decide
  have hf := DeclarationPhrase.forEach_resolved p.items Draft.initial_shows he
  exact (hf.mono (List.sublist_append_left _ _)).of_diagnostics rfl rfl

/-- A text whose kinds of token are a sentence of the grammar is read with the troubles that the
resolver finds in its tree, each reported once, in source order, where the name stands; nothing else is
reported. Uses that the resolver can bind have the symbol of their declaration. The resolver passes
all names of the tree. -/
theorem Parser.parse_resolves (source : String)
    (h : (Ebnf.rule .program).Derives ((Cursor.ofString source).tokens.map Token.kind)) :
    let root := (ofString source).parse.1
    let events := root.events .builtins
    (∃ told : List (Token × Event), told.map Prod.snd = events ∧
      (told.map Prod.fst).Sublist (Cursor.ofString source).tokens ∧
      (∀ p ∈ told, p.1.kind = .identifier ∧ p.1.lexeme = p.2.symbol.name) ∧
      (ofString source).parse.2.diagnostics.map Diagnostic.trouble? =
        (told.filterMap fun p => p.2.trouble? p.1).map some) ∧
      (∀ s u, .use s (some u) ∈ events → s = u) ∧
      events.map Event.symbol = root.preorder.flatMap Node.symbols := by
  obtain ⟨ph, e⟩ := h.exists_phrase
  have hp := parse_ofTokens ph
  rw [← e, ← ofString] at hp
  obtain ⟨⟨told, hevents, hsub, hnames, xs, hd, hx⟩, hbound⟩ := ph.build_resolved
  rw [← e] at hsub
  rw [hp]
  refine ⟨⟨told, hevents, hsub, hnames, ?_⟩, hbound, Node.map_events _ _⟩
  rw [← hx]
  exact congrArg _ hd

def shadowText : String :=
  "func f(x : int) : void { if true { var x : bool; let x = y; } var x : int; }"

theorem Parser.parse_resolves_shadow :
    (Ebnf.rule .program).Derives ((Cursor.ofString shadowText).tokens.map Token.kind) ∧
      (∀ s u, .use s (some u) ∈ (ofString shadowText).parse.1.events .builtins → s = u) ∧
      (ofString shadowText).parse.2.diagnostics.map Diagnostic.headline =
        ["ResolveSymbolError(1,58)[Could not find y.]",
          "DeclareSymbolError(1,67)[x already exists.]"] := by
  have hdone : (Parse.program (ofString shadowText)).casesOn (motive := fun _ => Bool)
      (fun _ _ => true) (fun _ _ => false) = true := by
    decide +kernel
  have h : (Ebnf.rule .program).Derives ((Cursor.ofString shadowText).tokens.map Token.kind) := by
    refine (program_done_iff shadowText).mp ?_
    cases hp : Parse.program (ofString shadowText) with
    | done n p => exact ⟨n, p, rfl⟩
    | stuck =>
      rw [hp] at hdone
      cases hdone
  exact ⟨h, (parse_resolves shadowText h).2.1, by decide +kernel⟩

end Crux
