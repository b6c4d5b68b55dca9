import Crux.Proofs.Source.Expression

namespace Crux.Source

namespace Context.Reached

variable {Γ : Context} {d : Draft}

theorem declareAs (h : Γ.Reached d) {x : Name} (hn : Γ.IsNew x) {ident : Token}
    (ht : ident.lexeme = x.text) (t : Ty) :
    (d.declareAs ident t).1 = ⟨Γ.next, x.text, some t⟩ ∧
      (Γ.declare x t).Reached (d.declareAs ident t).2 := by
  have hn' : Γ.env.IsNew ident.lexeme := ht ▸ hn
  obtain ⟨hs, hd⟩ := Draft.declareAs_new (t := t) h.shows hn'
  have hsym : d.newSymbol ident t = ⟨Γ.next, x.text, some t⟩ := by
    rw [Draft.newSymbol, ht, ← h.made]
    rfl
  have hquiet : (d.declareAs ident t).2.diagnostics = [] := by
    obtain ⟨scopes, hdecl, -⟩ := Draft.declare_new h.shows hn'
    rw [Draft.declareAs, hdecl]
    exact h.quiet
  rw [hsym] at hs hd
  refine ⟨hs, hd, ?_, hquiet⟩
  rw [(d.declareAs_made ident t).2, h.made]
  rfl

theorem enter (h : Γ.Reached d) : Γ.enter.Reached d.openScope :=
  ⟨h.shows.openScope, h.made, h.quiet⟩

theorem leave (h : Γ.Reached d) {scope : List Symbol} {env : Env} (he : Γ.env = scope :: env)
    (hne : env ≠ []) : Γ.leave.Reached d.closeScope := by
  have hs : d.Shows (scope :: env) := he ▸ h.shows
  refine ⟨?_, h.made, h.quiet⟩
  rw [Context.leave, he]
  exact hs.closeScope hne

end Context.Reached

theorem Numeral.exists_extent {n : Numeral} {ts : List Token} (h : Spells ts n.extent) :
    ∃ e : ExtentPhrase, e.tokens = ts ∧ e.size.val.lexeme = n.text := by
  obtain ⟨left, us, rfl, -, -, hus⟩ := h.token Kind.openBracket rfl
  obtain ⟨size, vs, rfl, -, ht, hvs⟩ := hus.token Kind.integer rfl
  obtain ⟨right, rfl, -⟩ := hvs.last Kind.closeBracket rfl
  exact ⟨⟨left, size, right⟩, rfl, ht⟩

theorem Numeral.exists_extents {ns : List Numeral} {ts : List Token}
    (h : Spells ts (ns.flatMap Numeral.extent)) :
    ∃ es : List ExtentPhrase, es.flatMap ExtentPhrase.tokens = ts ∧
      es.map (·.size.val.lexeme) = ns.map Numeral.text := by
  induction ns generalizing ts with
  | nil => exact ⟨[], (Spells.nil_iff.mp h).symm, rfl⟩
  | cons n ns ih =>
    obtain ⟨us, vs, rfl, hus, hvs⟩ := Spells.append_iff.mp h
    obtain ⟨e, rfl, he⟩ := Numeral.exists_extent hus
    obtain ⟨es, rfl, hes⟩ := ih hvs
    exact ⟨e :: es, rfl, by rw [List.map_cons, List.map_cons, he, hes]⟩

namespace Variable

theorem foldr_arrayOf {ts : List Token} {ns : List Numeral} (element : Ty)
    (h : ts.map Token.lexeme = ns.map Numeral.text) :
    ts.foldr Parse.arrayOf element = arrayTy element ns := by
  induction ts generalizing ns with
  | nil =>
    rw [List.map_eq_nil_iff.mp h.symm]
    rfl
  | cons t ts ih =>
    obtain ⟨n, ns, rfl, hn, hns⟩ := List.map_eq_cons_iff.mp h.symm
    rw [List.foldr_cons, ih hns.symm, Parse.arrayOf, ← hn]
    rfl

theorem gives_tree {Γ : Context} {v : Variable} (h : Γ.IsNew v.name) {ident : Token}
    (hx : ident.lexeme = v.name.text) {t : Ty} (ht : t = v.ty) (make : Tag → Symbol → Node)
    (hm : ∀ tag s, (make tag s).bare = make .blank s)
    (hv : v.tree Γ = make .blank ⟨Γ.next, v.name.text, some v.ty⟩) (pos : Position) :
    Gives Node.bare (fun d => (d.declareAs ident t).2.node pos (make · (d.declareAs ident t).1))
      Γ (v.after Γ) (v.tree Γ) := by
  intro d hd
  subst ht
  obtain ⟨hs, hd'⟩ := hd.declareAs h hx v.ty
  refine ⟨?_, hd'.node _ _⟩
  rw [hv, ← hs]
  exact hm _ _

theorem reads {Γ : Context} (v : Variable) (h : Γ.IsNew v.name) {ts : List Token}
    (hts : Spells ts v.words) :
    (∃ ph : VariablePhrase, ph.tokens = ts ∧
        Gives Node.bare ph.build Γ (v.after Γ) (v.tree Γ)) ∨
      ∃ ph : ArrayPhrase, ph.tokens = ts ∧ Gives Node.bare ph.build Γ (v.after Γ) (v.tree Γ) := by
  cases v with
  | plain x type =>
    obtain ⟨start, ts₁, rfl, -, -, h₁⟩ := hts.token Kind.kwVar rfl
    obtain ⟨ident, ts₂, rfl, -, hx, h₂⟩ := h₁.token Kind.identifier rfl
    obtain ⟨colon, ts₃, rfl, -, -, h₃⟩ := h₂.token Kind.colon rfl
    obtain ⟨name, ts₄, rfl, -, hname, h₄⟩ := h₃.token Nonterminal.typeName rfl
    obtain ⟨stop, rfl, -⟩ := h₄.last Kind.semicolon rfl
    have hty : Ty.ofName name.val.lexeme = type.ty := congrArg Ty.ofName hname
    exact .inl ⟨⟨start, ident, colon, name, stop⟩, rfl,
      gives_tree h hx hty .var (fun _ _ => rfl) rfl start.val.pos⟩
  | array x type first others =>
    obtain ⟨start, ts₁, rfl, -, -, h₁⟩ := hts.token Kind.kwArray rfl
    obtain ⟨ident, ts₂, rfl, -, hx, h₂⟩ := h₁.token Kind.identifier rfl
    obtain ⟨colon, ts₃, rfl, -, -, h₃⟩ := h₂.token Kind.colon rfl
    obtain ⟨name, ts₄, rfl, -, hname, h₄⟩ := h₃.token Nonterminal.typeName rfl
    obtain ⟨us, ts₅, rfl, hus, h₅⟩ := Spells.append_iff.mp h₄
    obtain ⟨vs, ts₆, rfl, hvs, h₆⟩ := Spells.append_iff.mp h₅
    obtain ⟨stop, rfl, -⟩ := h₆.last Kind.semicolon rfl
    obtain ⟨e, rfl, he⟩ := Numeral.exists_extent hus
    obtain ⟨es, rfl, hes⟩ := Numeral.exists_extents hvs
    have hty : ((e :: es).map (·.size.val)).foldr Parse.arrayOf (.ofName name.val.lexeme) =
        arrayTy type.ty (first :: others) := by
      rw [hname]
      refine foldr_arrayOf type.ty ?_
      rw [List.map_map, List.map_cons, List.map_cons]
      exact List.cons_eq_cons.mpr ⟨he, hes⟩
    exact .inr ⟨⟨start, ident, colon, name, e, es, stop⟩, rfl,
      gives_tree h hx hty .array (fun _ _ => rfl) rfl start.val.pos⟩

end Variable

namespace Statement

theorem after_env {x : Extent} (s : Statement x) {Γ : Context} {scope : List Symbol} {env : Env}
    (h : Γ.env = scope :: env) : ∃ scope', (s.after Γ).env = scope' :: env := by
  induction s generalizing Γ scope env with
  | var v =>
    rw [after, Variable.after, Context.declare, h]
    exact ⟨_, rfl⟩
  | branch c yes ih | loop c yes ih =>
    obtain ⟨scope', he⟩ := ih (Γ := Γ.enter) rfl
    rw [after, Context.leave, he]
    exact ⟨scope, h⟩
  | branchElse c yes no ihy ihn =>
    obtain ⟨scope₁, he₁⟩ := ihy (Γ := Γ.enter) rfl
    obtain ⟨scope₂, he₂⟩ := ihn (Γ := (yes.after Γ.enter).leave.enter) rfl
    rw [after, Context.leave, he₂, List.tail_cons, Context.leave, he₁]
    exact ⟨scope, h⟩
  | next s rest ihs ihr =>
    obtain ⟨scope', he⟩ := ihs h
    exact ihr he
  | call f args | assign target source | leave | leaveWith e | none => exact ⟨scope, h⟩

def Read (Γ : Context) : {x : Extent} → Statement x → Prop
  | .one, s => ∀ ts, Spells ts s.words → ∃ ph : StatementPhrase .statement, ph.tokens = ts ∧
      ∀ stop, Gives Node.bare (ph.build stop) Γ (s.after Γ) (s.tree Γ)
  | .many, s => ∀ ts, Spells ts s.words → ∃ ph : StatementPhrase .statements, ph.tokens = ts ∧
      ∀ stop, Gives Node.bareAll (ph.build stop) Γ (s.after Γ) (s.tree Γ)

theorem Read.block {Γ : Context} {s : Statement .many} (h : s.Read Γ) {ts : List Token}
    (hts : Spells ts (block s.words)) :
    ∃ ph : StatementPhrase .block, ph.tokens = ts ∧ ∀ stop,
      Gives Node.bare (ph.build stop) Γ (s.after Γ) (.list .blank .statements (s.tree Γ)) := by
  obtain ⟨left, us, rfl, -, -, hus⟩ := hts.token Kind.openBrace rfl
  obtain ⟨inner, vs, rfl, hi, hvs⟩ := Spells.append_iff.mp hus
  obtain ⟨right, rfl, -⟩ := hvs.last Kind.closeBrace rfl
  obtain ⟨ph, rfl, hg⟩ := h inner hi
  refine ⟨.block left ph right, rfl, fun stop d hd => ?_⟩
  obtain ⟨hn, hd'⟩ := hg right.val.pos d hd
  exact ⟨by rw [← hn]; rfl, hd'.node _ _⟩

theorem gives_scoped {Γ : Context} {x : Extent} {s : Statement x} {build : Draft → Node × Draft}
    {n : Node} (h : Gives Node.bare build Γ.enter (s.after Γ.enter) n) :
    Gives Node.bare (fun d => ((build d.openScope).1, (build d.openScope).2.closeScope)) Γ
      (s.after Γ.enter).leave n := by
  intro d hd
  obtain ⟨hn, hd'⟩ := h _ hd.enter
  obtain ⟨scope, he⟩ := s.after_env (Γ := Γ.enter) rfl
  exact ⟨hn, hd'.leave he hd.shows.ne_nil⟩

theorem read {Γ : Context} {x : Extent} (s : Statement x) (h : s.WellScoped Γ) : s.Read Γ := by
  induction s generalizing Γ with
  | var v =>
    intro ts hts
    obtain ⟨ph, ht, hg⟩ | ⟨ph, ht, hg⟩ := v.reads h hts
    · exact ⟨.var ph, ht, fun _ => hg⟩
    · exact ⟨.array ph, ht, fun _ => hg⟩
  | call f args =>
    intro ts hts
    obtain ⟨us, vs, rfl, hus, hvs⟩ := Spells.append_iff.mp hts
    obtain ⟨stop, rfl, -⟩ := hvs.last Kind.semicolon rfl
    obtain ⟨ph, rfl, hg⟩ := Expr.reads_call h.1 (args.read h.2).1 us hus
    exact ⟨.call ph stop, rfl, fun _ => hg⟩
  | assign target source =>
    intro ts hts
    obtain ⟨start, ts₁, rfl, -, -, h₁⟩ := hts.token Kind.kwLet rfl
    obtain ⟨us, ts₂, rfl, hus, h₂⟩ := Spells.append_iff.mp h₁
    obtain ⟨mark, ts₃, rfl, -, -, h₃⟩ := h₂.token Kind.assign rfl
    obtain ⟨vs, ts₄, rfl, hvs, h₄⟩ := Spells.append_iff.mp h₃
    obtain ⟨stop, rfl, -⟩ := h₄.last Kind.semicolon rfl
    obtain ⟨pt, rfl, ht⟩ := target.read h.1 us hus
    obtain ⟨ps, rfl, hs⟩ := (source.read h.2).comparison vs hvs
    refine ⟨.assign start pt mark ps stop, rfl, fun _ d hd => ?_⟩
    obtain ⟨hnt, hd₁⟩ := ht d hd
    obtain ⟨hns, hd₂⟩ := hs _ hd₁
    exact ⟨by rw [tree, ← hnt, ← hns]; rfl, hd₂.node _ _⟩
  | branch c yes ih =>
    intro ts hts
    obtain ⟨start, ts₁, rfl, -, -, h₁⟩ := hts.token Kind.kwIf rfl
    obtain ⟨us, vs, rfl, hus, hvs⟩ := Spells.append_iff.mp h₁
    obtain ⟨pc, rfl, hc⟩ := (c.read h.1).comparison us hus
    obtain ⟨py, rfl, hy⟩ := (ih h.2).block hvs
    refine ⟨.branch start pc py, rfl, fun stop d hd => ?_⟩
    obtain ⟨hnc, hd₁⟩ := hc d hd
    obtain ⟨hny, hd₂⟩ := gives_scoped (hy stop) _ hd₁
    exact ⟨by rw [tree, ← hnc, ← hny]; rfl, (hd₂.node stop (.list · .statements [])).node _ _⟩
  | branchElse c yes no ihy ihn =>
    intro ts hts
    obtain ⟨start, ts₁, rfl, -, -, h₁⟩ := hts.token Kind.kwIf rfl
    obtain ⟨us, ts₂, rfl, hus, h₂⟩ := Spells.append_iff.mp h₁
    obtain ⟨vs, ts₃, rfl, hvs, h₃⟩ := Spells.append_iff.mp h₂
    obtain ⟨mark, ws, rfl, -, -, hws⟩ := h₃.token Kind.kwElse rfl
    obtain ⟨pc, rfl, hc⟩ := (c.read h.1).comparison us hus
    obtain ⟨py, rfl, hy⟩ := (ihy h.2.1).block hvs
    obtain ⟨pn, rfl, hn⟩ := (ihn h.2.2).block hws
    refine ⟨.branchElse start pc py mark pn, rfl, fun stop d hd => ?_⟩
    obtain ⟨hnc, hd₁⟩ := hc d hd
    obtain ⟨hny, hd₂⟩ := gives_scoped (hy mark.val.pos) _ hd₁
    obtain ⟨hnn, hd₃⟩ := gives_scoped (hn stop) _ hd₂
    exact ⟨by rw [tree, ← hnc, ← hny, ← hnn]; rfl, hd₃.node _ _⟩
  | loop c body ih =>
    intro ts hts
    obtain ⟨start, ts₁, rfl, -, -, h₁⟩ := hts.token Kind.kwWhile rfl
    obtain ⟨us, vs, rfl, hus, hvs⟩ := Spells.append_iff.mp h₁
    obtain ⟨pc, rfl, hc⟩ := (c.read h.1).comparison us hus
    obtain ⟨pb, rfl, hb⟩ := (ih h.2).block hvs
    refine ⟨.loop start pc pb, rfl, fun stop d hd => ?_⟩
    obtain ⟨hnc, hd₁⟩ := hc d hd
    obtain ⟨hnb, hd₂⟩ := gives_scoped (hb stop) _ hd₁
    exact ⟨by rw [tree, ← hnc, ← hnb]; rfl, hd₂.node _ _⟩
  | leave =>
    intro ts hts
    obtain ⟨start, ts₁, rfl, -, -, h₁⟩ := hts.token Kind.kwReturn rfl
    obtain ⟨stop, rfl, -⟩ := h₁.last Kind.semicolon rfl
    exact ⟨.leave start stop, rfl, fun _ d hd => ⟨rfl, hd.node _ _⟩⟩
  | leaveWith e =>
    intro ts hts
    obtain ⟨start, ts₁, rfl, -, -, h₁⟩ := hts.token Kind.kwReturn rfl
    obtain ⟨us, vs, rfl, hus, hvs⟩ := Spells.append_iff.mp h₁
    obtain ⟨stop, rfl, -⟩ := hvs.last Kind.semicolon rfl
    obtain ⟨pe, rfl, he⟩ := (e.read h).comparison us hus
    refine ⟨.leaveWith start pe stop, rfl, fun _ d hd => ?_⟩
    obtain ⟨hn, hd'⟩ := he d hd
    exact ⟨by rw [tree, ← hn]; rfl, hd'.node _ _⟩
  | none =>
    exact fun ts hts => ⟨.none, (Spells.nil_iff.mp hts).symm, fun _ d hd => ⟨rfl, hd⟩⟩
  | next s rest ihs ihr =>
    intro ts hts
    obtain ⟨us, vs, rfl, hus, hvs⟩ := Spells.append_iff.mp hts
    obtain ⟨first, rfl, hf⟩ := ihs h.1 us hus
    obtain ⟨others, rfl, ho⟩ := ihr h.2 vs hvs
    exact ⟨.next first others, rfl, fun stop => (hf _).cons (ho stop)⟩

end Statement

end Crux.Source
