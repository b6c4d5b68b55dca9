import Crux.Proofs.Grammar.Accepts
import Crux.Proofs.Grammar.Lookahead

namespace Crux

/-- Some sentence of the grammar begins so. -/
def Ebnf.BeginsSentence (v : List Kind) : Prop := ∃ w, (Ebnf.rule .program).Derives w ∧ v <+: w

namespace Parser

variable {ts rest : List Token} {t : Token} {pos : Position} {p q : Parser}

theorem Ended.eof_iff (hp : p.Ended) (e : p.tokens = ts ++ t :: rest) :
    t.kind = .eof ↔ rest = [] := by
  have hq : (p.toDraft.reading (t :: rest)).Ended := hp.of_append e
  exact ⟨hq.later_eq_nil, hq.current_eq⟩

/-- A token that ends the reading of one stream ends it in all streams that begin so. -/
theorem program_stuck_at {rest' : List Token} (hr : rest ≠ []) (hr' : rest' ≠ [])
    (h : Parse.program (ofTokens (ts ++ t :: rest)) = .stuck pos q) (hq : q.tokens = t :: rest) :
    ∃ q', Parse.program (ofTokens (ts ++ t :: rest')) = .stuck pos q' := by
  have hp : Alike t rest rest' ts (ofTokens (ts ++ t :: rest)) (ofTokens (ts ++ t :: rest')) :=
    ⟨rfl, tokens_reading (by simp), tokens_reading (by simp), hr, hr'⟩
  have hlocal : Parse.Local 0 (ts.length + 1) Parse.program Parse.program := inferInstance
  have hz := hlocal.alike hp (Nat.lt_succ_self _)
  rw [h] at hz
  generalize Parse.program (ofTokens (ts ++ t :: rest')) = z at hz
  cases hz with
  | stuck => exact ⟨_, rfl⟩
  | passed hl =>
    rw [Parsed.last, hq] at hl
    exact absurd hl (Nat.not_succ_le_self _)

theorem not_derives_of_stuck (hp : (ofTokens (ts ++ t :: rest)).Ended)
    (h : Parse.program (ofTokens (ts ++ t :: rest)) = .stuck pos q) (hq : q.tokens = t :: rest)
    (ks : List Kind) : ¬ (Ebnf.rule .program).Derives (ts.map Token.kind ++ t.kind :: ks) := by
  intro hd
  -- Tokens of these kinds, with the one in question as it is, would be read to their end.
  obtain ⟨us, rfl⟩ : ∃ us : List Token, us.map Token.kind = ks :=
    ⟨ks.map (⟨·, "", .start⟩), by simp [Function.comp_def]⟩
  have hsentence : (Ebnf.rule .program).Derives ((ts ++ t :: us).map Token.kind) := by
    simpa using hd
  obtain ⟨ph, e⟩ := hsentence.exists_phrase
  have hdone := Parse.program_complete ph .initial
  rw [← e] at hdone
  have hlast := hp.eof_iff (tokens_reading (by simp))
  have hlast' := hd.eof_iff
  rw [List.map_eq_nil_iff] at hlast'
  by_cases hr : rest = []
  · obtain rfl := hlast'.mp (hlast.mpr hr)
    rw [hr] at h
    cases h.symm.trans hdone
  · obtain ⟨q', hq'⟩ := program_stuck_at hr (fun hu => hr (hlast.mp (hlast'.mpr hu))) h hq
    cases hq'.symm.trans hdone

/-- Where the first reading of a text breaks off, the tokens passed begin a sentence of the grammar,
and with the kind of the current token no sentence begins any more. The one report about the grammar
has the place and the kind of that token. -/
theorem parse_breaks_at_first_impossible (source : String)
    (h : (ofString source).parse.1.isError) :
    ∃ (passed : List Token) (t : Token) (rest : List Token) (e : Expected) (names : List Diagnostic),
      (Cursor.ofString source).tokens = passed ++ t :: rest ∧
      (ofString source).parse.2.tokens = t :: rest ∧
      (ofString source).parse.2.diagnostics = names ++ [.unexpected t.pos e t.kind] ∧
      (∀ x ∈ names, x.isSyntax = false) ∧
      Ebnf.BeginsSentence (passed.map Token.kind) ∧
      ¬ Ebnf.BeginsSentence (passed.map Token.kind ++ [t.kind]) := by
  have hreports : Parse.Reports Parse.program := inferInstance
  have hended := ofString_ended source
  rw [parse] at h ⊢
  cases hrun : Parse.program (ofString source) with
  | done root q =>
    obtain ⟨tag, items, rfl⟩ := program_root hrun
    rw [hrun] at h
    cases h
  | stuck pos q =>
    obtain ⟨ts, more, e, hd⟩ := Parse.program_viable hended hrun
    obtain ⟨d, expected, ⟨names, hnames, hquiet⟩, rfl, hq⟩ := hreports.stuck hrun
    rw [tokens_ofString] at e
    rw [ofString, e] at hrun hended
    refine ⟨ts, q.current, q.later, expected, names, e, rfl, ?_, hquiet, ?_, ?_⟩
    · rw [← List.nil_append names]
      exact hq.trans (congrArg (· ++ _) hnames)
    · exact ⟨_, hd, List.prefix_append _ _⟩
    · rintro ⟨w, hw, ks, rfl⟩
      rw [List.append_assoc] at hw
      exact not_derives_of_stuck hended hrun rfl ks hw

def unassignedText : String := "func main() : void \x7b let x 3; \x7d"

theorem parse_breaks_at_number :
    ∃ (passed : List Token) (t : Token) (rest : List Token),
      (Cursor.ofString unassignedText).tokens = passed ++ t :: rest ∧ t.kind = .integer ∧
      (∃ e x, (ofString unassignedText).parse.2.diagnostics =
        [x, .unexpected t.pos e t.kind] ∧ x.isSyntax = false) ∧
      Ebnf.BeginsSentence (passed.map Token.kind) ∧
      ¬ Ebnf.BeginsSentence (passed.map Token.kind ++ [.integer]) := by
  have hrun : (ofString unassignedText).parse.1.isError ∧
      (ofString unassignedText).parse.2.current.kind = .integer ∧
      (ofString unassignedText).parse.2.diagnostics.length = 2 := by
    decide +kernel
  obtain ⟨passed, t, rest, e, names, htokens, hcurrent, hreports, hnames, hbegins, hends⟩ :=
    parse_breaks_at_first_impossible unassignedText hrun.1
  have hkind : t.kind = .integer := by
    rw [← hrun.2.1, (List.cons.inj hcurrent).1]
  rw [hkind] at hends
  rw [hreports, List.length_append, List.length_singleton] at hrun
  obtain ⟨x, rfl⟩ := List.length_eq_one_iff.mp (Nat.succ.inj hrun.2.2)
  exact ⟨passed, t, rest, htokens, hkind, ⟨e, x, hreports, hnames x (.head _)⟩, hbegins, hends⟩

end Parser

end Crux
