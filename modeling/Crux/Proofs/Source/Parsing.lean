import Crux.Proofs.Grammar.Accepts
import Crux.Proofs.Source.Statement

namespace Crux.Source

namespace Parameter

theorem exists_phrase {p : Parameter} {ts : List Token} (h : Spells ts p.words) :
    ∃ ph : ParameterPhrase, ph.tokens = ts ∧ ph.ident.val.lexeme = p.name.text ∧
      ph.ty = p.type.ty := by
  obtain ⟨ident, us, rfl, -, hx, hus⟩ := h.token Kind.identifier rfl
  obtain ⟨colon, vs, rfl, -, -, hvs⟩ := hus.token Kind.colon rfl
  obtain ⟨type, rfl, -, ht⟩ := hvs.last Nonterminal.typeName rfl
  exact ⟨⟨ident, colon, type⟩, rfl, hx, congrArg Ty.ofName ht⟩

def Named (phs : List ParameterPhrase) (params : List Parameter) : Prop :=
  phs.map (fun ph => (ph.ident.val.lexeme, ph.ty)) = params.map fun p => (p.name.text, p.type.ty)

theorem Named.cons {ph : ParameterPhrase} {phs : List ParameterPhrase} {p : Parameter}
    {params : List Parameter} (hx : ph.ident.val.lexeme = p.name.text) (ht : ph.ty = p.type.ty)
    (h : Named phs params) : Named (ph :: phs) (p :: params) := by
  rw [Named, List.map_cons, List.map_cons, hx, ht, h]

theorem exists_further {params : List Parameter} {ts : List Token}
    (h : Spells ts (params.flatMap fun p => .fixed .comma :: p.words)) :
    ∃ rest : List (TokenOf Kind.comma × ParameterPhrase),
      rest.flatMap (fun (comma, ph) => comma.val :: ph.tokens) = ts ∧
        Named (rest.map (·.2)) params := by
  induction params generalizing ts with
  | nil => exact ⟨[], (Spells.nil_iff.mp h).symm, rfl⟩
  | cons p params ih =>
    obtain ⟨us, vs, rfl, hus, hvs⟩ := Spells.append_iff.mp h
    obtain ⟨comma, us, rfl, -, -, hus⟩ := hus.token Kind.comma rfl
    obtain ⟨ph, rfl, hx, ht⟩ := exists_phrase hus
    obtain ⟨rest, rfl, hr⟩ := ih hvs
    exact ⟨(comma, ph) :: rest, rfl, .cons hx ht hr⟩

theorem exists_row {params : List Parameter} {ts : List Token} (h : Spells ts (row params)) :
    ∃ ph : ParametersPhrase, ph.tokens = ts ∧ Named ph.list params := by
  cases params with
  | nil => exact ⟨.none, (Spells.nil_iff.mp h).symm, rfl⟩
  | cons p params =>
    obtain ⟨us, vs, rfl, hus, hvs⟩ := Spells.append_iff.mp h
    obtain ⟨ph, rfl, hx, ht⟩ := exists_phrase hus
    obtain ⟨rest, rfl, hr⟩ := exists_further hvs
    exact ⟨.some ph rest, rfl, .cons hx ht hr⟩

theorem gives_symbols {phs : List ParameterPhrase} {params : List Parameter}
    (h : Named phs params) {scope : List Symbol} {env : Env} {next : Nat}
    (hn : (scope.map Symbol.name ++ params.map (·.name.text)).Nodup) :
    Gives id (Draft.forEach ParameterPhrase.build phs) ⟨scope :: env, next⟩
      ⟨(scope ++ symbols next params) :: env, next + params.length⟩ (symbols next params) := by
  induction params generalizing phs scope next with
  | nil =>
    rw [List.map_eq_nil_iff.mp h]
    exact fun d hd => ⟨rfl, by simpa [symbols, Draft.forEach] using hd⟩
  | cons p params ih =>
    obtain ⟨ph, phs, rfl, hp, hps⟩ := List.map_eq_cons_iff.mp h
    obtain ⟨hx, ht⟩ := Prod.mk.inj hp
    intro d hd
    have hnew : (⟨scope :: env, next⟩ : Context).IsNew p.name := by
      intro s hs he
      refine (List.nodup_append.mp hn).2.2 _ (List.mem_map_of_mem hs) _ ?_ he
      exact List.mem_cons_self
    have hb : ph.build d = d.declareAs ph.ident p.type.ty := by rw [ParameterPhrase.build, ht]
    obtain ⟨hs, hd₁⟩ := hd.declareAs hnew hx p.type.ty
    have hn' : ((scope ++ [(⟨next, p.name.text, some p.type.ty⟩ : Symbol)]).map Symbol.name ++
        params.map (·.name.text)).Nodup := by
      simpa using hn
    obtain ⟨hss, hd₂⟩ := ih hps hn' _ hd₁
    rw [List.append_assoc, Nat.add_right_comm] at hd₂
    simp only [Draft.forEach, hb]
    refine ⟨?_, hd₂⟩
    rw [symbols, ← hs, ← hss]
    rfl

theorem map_ty_symbols (next : Nat) (params : List Parameter) :
    (symbols next params).map Symbol.ty = params.map (·.type.ty) := by
  induction params generalizing next with
  | nil => rfl
  | cons p params ih =>
    rw [symbols, List.map_cons, ih]
    rfl

theorem isSome_of_mem_symbols {next : Nat} {params : List Parameter} {s : Symbol}
    (h : s ∈ symbols next params) : s.type?.isSome := by
  induction params generalizing next with
  | nil => cases h
  | cons p params ih =>
    obtain rfl | h := List.mem_cons.mp h
    · rfl
    · exact ih h

end Parameter

namespace Context

def announce (Γ : Context) (x : Name) : Context :=
  ⟨Γ.env.declare ⟨Γ.next, x.text, none⟩, Γ.next + 1⟩

variable {Γ : Context} {d : Draft} {x : Name}

theorem Reached.announce (h : Γ.Reached d) (hn : Γ.IsNew x) {ident : Token}
    (hx : ident.lexeme = x.text) :
    ∃ d', d.declare ident = (⟨Γ.next, x.text⟩, d') ∧ (Γ.announce x).Reached d' := by
  have hn' : Γ.env.IsNew ident.lexeme := hx ▸ hn
  obtain ⟨scopes, hs, htypes, henv, hb⟩ := Draft.declare_new h.shows hn'
  rw [hx, show d.scopes.types.size = Γ.next from h.made] at hs henv
  refine ⟨_, hs, ⟨henv, hb⟩, ?_, h.quiet⟩
  simp only [Draft.made, htypes, Array.size_push]
  exact congrArg (· + 1) h.made

theorem Reached.settle (h : Γ.Reached d) {d' : Draft} {scope : List Symbol} {next : Nat}
    (h' : Context.Reached ⟨scope :: (Γ.announce x).env, next⟩ d')
    (hs : ∀ s ∈ scope, s.type?.isSome) (t : Ty) :
    Context.Reached ⟨scope :: (Γ.declare x t).env, next⟩ (d'.setType ⟨Γ.next, x.text⟩ t) := by
  have hi : Env.SettledAt Γ.next [scope] := by
    intro u hu s hsu _
    rw [List.mem_singleton.mp hu] at hsu
    exact hs s hsu
  have he : Γ.env.SettledAt Γ.next := by
    intro u hu s hsu hid
    have hlt := h.shows.id_lt hu hsu
    rw [hid, ← h.made] at hlt
    exact absurd hlt (Nat.lt_irrefl _)
  refine ⟨Draft.Shows.setType [scope] hi he h'.shows t, ?_, h'.quiet⟩
  rw [Draft.setType_made, h'.made]

end Context

namespace Declaration

theorem gives_function {Γ : Context} {f : Name} {params : List Parameter} {result : Name}
    {body : Statement .many} (hnew : Γ.IsNew f) (hnodup : (params.map (·.name.text)).Nodup)
    (ph : FunctionPhrase) (hf : ph.ident.val.lexeme = f.text)
    (hp : Parameter.Named ph.params.list params) (hr : ph.result = result.ty)
    (hb : Gives Node.bare (ph.body.build .start) (inside Γ f params result)
      (body.after (inside Γ f params result))
      (.list .blank .statements (body.tree (inside Γ f params result)))) :
    Gives Node.bare ph.build Γ ((function f params result body).after Γ)
      ((function f params result body).tree Γ) := by
  intro d hd
  obtain ⟨d₁, hs, hd₁⟩ := hd.announce hnew hf
  obtain ⟨hps, hd₂⟩ := Parameter.gives_symbols hp (by simpa using hnodup) _ hd₁.enter
  simp only [FunctionPhrase.build, hs]
  generalize Draft.forEach ParameterPhrase.build ph.params.list d₁.openScope = r at hps hd₂ ⊢
  obtain ⟨params', d₂⟩ := r
  obtain rfl : params' = _ := hps
  have hd₃ := hd.settle hd₂ (fun s => Parameter.isSome_of_mem_symbols) (functionTy params result)
  have hty : Ty.func ((Parameter.symbols (Γ.next + 1) params).map Symbol.ty) ph.result =
      functionTy params result := by
    rw [Parameter.map_ty_symbols, hr, functionTy]
  obtain ⟨hn, hd₄⟩ := hb _ hd₃
  obtain ⟨scope, he⟩ := body.after_env (Γ := inside Γ f params result) rfl
  have hd₅ := hd₄.leave he (by simp [Context.declare, Env.declare])
  have hs₅ := hd₅.shows
  rw [Context.leave, he] at hs₅
  have hsym := hs₅.symbol_eq List.mem_cons_self (List.mem_append_right _ List.mem_cons_self)
  simp only [Context.announce, hty, hsym]
  exact ⟨by rw [tree, ← hn]; rfl, hd₅.node _ _⟩

theorem reads {Γ : Context} (x : Declaration) (h : x.WellScoped Γ) {ts : List Token}
    (hts : Spells ts x.words) :
    ∃ ph : DeclarationPhrase, ph.tokens = ts ∧
      Gives Node.bare ph.build Γ (x.after Γ) (x.tree Γ) := by
  cases x with
  | var v =>
    obtain ⟨ph, ht, hg⟩ | ⟨ph, ht, hg⟩ := v.reads h hts
    · exact ⟨.var ph, ht, hg⟩
    · exact ⟨.array ph, ht, hg⟩
  | function f params result body =>
    obtain ⟨hnew, hnodup, hbody⟩ := h
    obtain ⟨start, ts₁, rfl, -, -, h₁⟩ := hts.token Kind.kwFunc rfl
    obtain ⟨ident, ts₂, rfl, -, hf, h₂⟩ := h₁.token Kind.identifier rfl
    obtain ⟨left, ts₃, rfl, -, -, h₃⟩ := h₂.token Kind.openParen rfl
    obtain ⟨us, ts₄, rfl, hus, h₄⟩ := Spells.append_iff.mp h₃
    obtain ⟨right, ts₅, rfl, -, -, h₅⟩ := h₄.token Kind.closeParen rfl
    obtain ⟨colon, ts₆, rfl, -, -, h₆⟩ := h₅.token Kind.colon rfl
    obtain ⟨type, vs, rfl, -, hr, hvs⟩ := h₆.token Nonterminal.typeName rfl
    obtain ⟨pp, rfl, hp⟩ := Parameter.exists_row hus
    obtain ⟨pb, rfl, hb⟩ := (body.read hbody).block hvs
    exact ⟨.function ⟨start, ident, left, pp, right, colon, type, pb⟩, rfl,
      gives_function hnew hnodup _ hf hp (congrArg Ty.ofName hr) (hb .start)⟩

end Declaration

namespace Program

theorem reads {Γ : Context} {p : Program} (h : p.WellScopedFrom Γ) {ts : List Token}
    (hts : Spells ts p.words) :
    ∃ phs : List DeclarationPhrase, phs.flatMap DeclarationPhrase.tokens = ts ∧
      ∃ Γ', Gives Node.bareAll (Draft.forEach DeclarationPhrase.build phs) Γ Γ' (p.treesFrom Γ) := by
  induction p generalizing Γ ts with
  | nil => exact ⟨[], (Spells.nil_iff.mp hts).symm, Γ, fun d hd => ⟨rfl, hd⟩⟩
  | cons x p ih =>
    obtain ⟨us, vs, rfl, hus, hvs⟩ := Spells.append_iff.mp hts
    obtain ⟨ph, rfl, hg⟩ := x.reads h.1 hus
    obtain ⟨phs, rfl, Γ', hgs⟩ := ih h.2 hvs
    exact ⟨ph :: phs, rfl, Γ', hg.cons hgs⟩

theorem initial_reached : Context.initial.Reached .initial := ⟨Draft.initial_shows, rfl, rfl⟩

/-- Parsing the text of a well-scoped program reports nothing and gives the tree of the program, up
to the numbers and places of its nodes. -/
theorem parse_text (p : Program) (h : p.WellScoped) :
    (Parser.ofString p.text).parse.2.diagnostics = [] ∧
      (Parser.ofString p.text).parse.1.bare = p.tree := by
  obtain ⟨ts, pos, ht, hs⟩ := Cursor.tokens_join p.words
  obtain ⟨phs, rfl, Γ', hg⟩ := reads h hs
  obtain ⟨hn, hd⟩ := hg _ initial_reached
  have hp := Parser.parse_ofTokens ⟨phs, .eof pos, rfl⟩
  rw [ProgramPhrase.tokens, ← ht] at hp
  rw [Parser.ofString, text, hp]
  exact ⟨hd.quiet, by rw [tree, ← hn]; rfl⟩

/-- Operators of all levels on both sides of each other, elements of elements, a call, and a branch
without an alternative. -/
def spread : Program :=
  let int : Name := ⟨"int", by decide, by decide⟩
  let grid : Name := ⟨"grid", by decide, by decide⟩
  let f : Name := ⟨"spread", by decide, by decide⟩
  let w : Name := ⟨"w", by decide, by decide⟩
  let h : Name := ⟨"h", by decide, by decide⟩
  let two : Numeral := ⟨"2", by decide, by decide⟩
  let of (x : Name) : Expr .value := .load (.name x)
  [.var (.array grid int two [two]),
   .function f [⟨w, int⟩, ⟨h, int⟩] int
    (.next (.assign (.element (.element (.name grid) (of w)) (.binary .sub (of h) (of w)))
        (.binary .mul (.binary .sub (of w) (.binary .sub (of h) (of w))) (.literal (.numeral two))))
      (.next (.branch (.not (.binary .or (.compare .lt (of w) (of h)) (.literal (.bool true))))
          (.next (.var (.plain w int)) (.next .leave .none)))
        (.next (.leaveWith (.binary .add (.call f (.next (of h) (.next (of w) .none)))
          (.binary .div (of w) (of h)))) .none)))]

theorem parse_text_spread :
    spread.text = "array grid : int [ 2 ] [ 2 ] ; func spread ( w : int , h : int ) : int \x7b " ++
        "let grid [ w ] [ h - w ] = ( w - ( h - w ) ) * 2 ; " ++
        "if not ( ( w < h ) or true ) \x7b var w : int ; return ; \x7d " ++
        "return :: spread ( h , w ) + w / h ; \x7d" ∧
      spread.WellScoped ∧ (Parser.ofString spread.text).parse.2.diagnostics = [] ∧
      (Parser.ofString spread.text).parse.1.bare = spread.tree := by
  have h : spread.WellScoped := by decide +kernel
  exact ⟨by decide +kernel, h, parse_text spread h⟩

end Program

end Crux.Source
