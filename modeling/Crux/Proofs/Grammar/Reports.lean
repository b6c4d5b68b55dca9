import Crux.Proofs.Grammar.Invariant

namespace Crux

def Diagnostic.isSyntax : Diagnostic → Bool
  | .unexpected .. => true
  | .redeclared .. | .unresolved .. => false

def Draft.KeepsReading (d d' : Draft) : Prop :=
  ∃ xs, d'.diagnostics = d.diagnostics ++ xs ∧ ∀ x ∈ xs, x.isSyntax = false

namespace Draft

theorem KeepsReading.refl (d : Draft) : d.KeepsReading d := ⟨[], by simp⟩

theorem KeepsReading.trans {d d' d'' : Draft} (h : d.KeepsReading d') (h' : d'.KeepsReading d'') :
    d.KeepsReading d'' := by
  obtain ⟨xs, e, hx⟩ := h
  obtain ⟨ys, e', hy⟩ := h'
  refine ⟨xs ++ ys, by rw [e', e, List.append_assoc], fun x h => ?_⟩
  exact (List.mem_append.mp h).elim (hx x) (hy x)

theorem troubled_keeps (name : String) {trouble : Scopes → Diagnostic} (d : Draft)
    (h : ∀ s, (trouble s).isSyntax = false) : d.KeepsReading (d.troubled name trouble).2 :=
  ⟨[trouble d.scopes], rfl, by simpa using h _⟩

theorem declare_keeps (ident : Token) (d : Draft) : d.KeepsReading (d.declare ident).2 := by
  unfold declare
  split
  · exact .refl _
  · exact troubled_keeps _ _ fun _ => rfl

theorem resolve_keeps (ident : Token) (d : Draft) : d.KeepsReading (d.resolve ident).2 := by
  unfold resolve
  split
  · exact .refl _
  · exact troubled_keeps _ _ fun _ => rfl

end Draft

namespace Parse

variable {α β : Type}

/-- A finished run adds only troubles with names. A run that breaks off adds one report about the
grammar behind them, which names the current token. -/
class Reports (x : Parse α) : Prop where
  done : ∀ {p a q}, x p = .done a q → p.KeepsReading q.toDraft
  stuck : ∀ {p pos q}, x p = .stuck pos q → ∃ (d : Draft) (e : Expected),
    p.KeepsReading d ∧ pos = q.current.pos ∧
      q.diagnostics = d.diagnostics ++ [.unexpected pos e q.current.kind]

end Parse

namespace Scopes

variable (s : Scopes) (b : Binding)

theorem enter_depth : (s.enter b).depth = s.depth := by
  unfold enter
  split
  · rfl
  · rename_i h
    simp [depth, h]

theorem setType_depth (t : Ty) : (s.setType b t).depth = s.depth := by
  unfold setType
  split <;> rfl

theorem pop_depth {n : Nat} (h : s.depth = n + 1) : s.pop.depth = n := by
  rw [depth] at h
  rw [depth, pop, List.length_tail, h, Nat.add_sub_cancel]

end Scopes

namespace Draft

variable (ident : Token) (d : Draft)

theorem declare_cases :
    (∃ b, b.name = ident.lexeme ∧ d.declare ident =
      (b, { d with scopes := ((d.scopes.fresh ident.lexeme none).2.enter b) })) ∨
    d.declare ident = d.troubled ident.lexeme (.redeclared ident.pos ident.lexeme) := by
  unfold declare Scopes.declare
  by_cases h : (d.scopes.innermost.find? ident.lexeme).isSome
  · exact .inr (by rw [if_pos h])
  · exact .inl ⟨_, rfl, by rw [if_neg h]⟩

theorem resolve_cases :
    (∃ scope ∈ d.scopes.chain, ∃ b ∈ scope, d.resolve ident = (b, d)) ∨
    d.resolve ident = d.troubled ident.lexeme (.unresolved ident.pos ident.lexeme) := by
  unfold resolve Scopes.resolve
  cases h : d.scopes.chain.findSome? (·.find? ident.lexeme) with
  | none => exact .inr rfl
  | some b =>
    obtain ⟨scope, hs, hb⟩ := List.exists_of_findSome?_eq_some h
    exact .inl ⟨scope, hs, b, List.mem_of_find?_eq_some hb, rfl⟩

theorem declare_depth : (d.declare ident).2.scopes.depth = d.scopes.depth := by
  obtain ⟨b, -, h⟩ | h := d.declare_cases ident
  · rw [h]
    exact Scopes.enter_depth _ b
  · rw [h]
    rfl

theorem resolve_depth : (d.resolve ident).2.scopes.depth = d.scopes.depth := by
  obtain ⟨scope, -, b, -, h⟩ | h := d.resolve_cases ident
  · rw [h]
  · rw [h]
    rfl

end Draft

namespace Parse

def Invariant.since (p₀ : Parser) : Invariant where
  stream ts := ts <:+ p₀.tokens
  draft n d := p₀.KeepsReading d ∧ d.scopes.depth = p₀.scopes.depth + n
  broken n pos p := p.tokens <:+ p₀.tokens ∧ p₀.scopes.depth + n ≤ p.scopes.depth ∧
    ∃ (d : Draft) (e : Expected), p₀.KeepsReading d ∧ pos = p.current.pos ∧
      p.diagnostics = d.diagnostics ++ [.unexpected pos e p.current.kind]
  token _ := True
  binding _ := True
  ty _ := True
  symbol _ := True
  node _ := True
  front _ := trivial
  next h := (List.suffix_cons _ _).trans h
  numbers h := h
  opens h := ⟨h.1, congrArg (· + 1) h.2⟩
  closes h := ⟨h.1, Scopes.pop_depth _ h.2⟩
  declares _ h :=
    ⟨trivial, h.1.trans (Draft.declare_keeps _ _), (Draft.declare_depth _ _).trans h.2⟩
  resolves _ h :=
    ⟨trivial, h.1.trans (Draft.resolve_keeps _ _), (Draft.resolve_depth _ _).trans h.2⟩
  setsType _ h := ⟨h.1, (Scopes.setType_depth _ _ _).trans h.2⟩
  symbolOf _ _ := trivial
  breaks e hs hd := ⟨hs, Nat.le_of_eq hd.2.symm, _, e, hd.1, rfl, rfl⟩
  leaves h := ⟨h.1, Nat.le_of_succ_le h.2.1, h.2.2⟩
  typeName _ := trivial
  arrayOf _ _ := trivial
  func _ _ := trivial
  literal _ _ := trivial
  tree _ _ _ := trivial

theorem since_holds (p : Parser) : (Invariant.since p).Holds 0 p :=
  ⟨List.suffix_rfl, .refl _, rfl⟩

instance : Reports program where
  done {p _ _} h := (Invariant.program_keeps.done (since_holds p) h).2.2.1
  stuck {p _ _} h := (Invariant.program_keeps.stuck (since_holds p) h).2.2

end Parse

end Crux
