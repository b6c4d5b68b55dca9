import Crux.Proofs.Grammar.Reports
import Crux.Proofs.Grammar.Sound
import Crux.Proofs.Phrase.Complete.Program
import Crux.Proofs.Phrase.Derived

namespace Crux

namespace Cursor

theorem scan_ne_nil (c : Cursor) : c.scan.1 ≠ [] := by
  rw [scan]
  split <;> simp

theorem scan_ended (c : Cursor) :
    (∃ t, c.scan.1.getLast? = some t ∧ t.kind = .eof) ∧
      ∀ t ∈ c.scan.1.dropLast, t.kind ≠ .eof := by
  fun_induction scan c with
  | case1 c h => exact ⟨⟨_, rfl, h⟩, by simp⟩
  | case2 c h tokens last hscan ih =>
    have hne : tokens ≠ [] := by
      have := scan_ne_nil c.next.2
      rwa [hscan] at this
    rw [hscan] at ih
    obtain ⟨⟨t, ht, hk⟩, ho⟩ := ih
    refine ⟨⟨t, by simp [List.getLast?_cons, ht], hk⟩, fun u hu => ?_⟩
    rw [List.dropLast_cons_of_ne_nil hne] at hu
    obtain rfl | hu := List.mem_cons.mp hu
    · exact h
    · exact ho u hu

end Cursor

namespace Parser

theorem tokens_reading {d : Draft} {ts : List Token} (h : ts ≠ []) : (d.reading ts).tokens = ts := by
  cases ts with
  | nil => exact absurd rfl h
  | cons t rest => rfl

theorem tokens_ofString (source : String) :
    (ofString source).tokens = (Cursor.ofString source).tokens :=
  tokens_reading (Cursor.scan_ne_nil _)

theorem ofString_ended (source : String) : (ofString source).Ended := by
  obtain ⟨hl, ho⟩ := (Cursor.ofString source).scan_ended
  constructor
  · rwa [tokens_ofString]
  · rwa [tokens_ofString]

end Parser

theorem Ebnf.Derives.exists_phrase {ts : List Token}
    (h : (Ebnf.rule .program).Derives (ts.map Token.kind)) : ∃ ph : ProgramPhrase, ts = ph.tokens :=
  Nonterminal.phrased_of_derives h

namespace Parser

theorem parse_ofTokens (ph : ProgramPhrase) :
    (ofTokens ph.tokens).parse =
      ((ph.build .initial).1, (ph.build .initial).2.reading [ph.stop.val]) := by
  rw [parse, ofTokens, Parse.program_complete]

/-- The parser finishes exactly on the sentences of the grammar. -/
theorem program_done_iff (source : String) :
    (∃ root q, Parse.program (ofString source) = .done root q) ↔
      (Ebnf.rule .program).Derives ((Cursor.ofString source).tokens.map Token.kind) := by
  constructor
  · rintro ⟨root, q, h⟩
    rw [← tokens_ofString]
    exact Parse.program_derives (ofString_ended source) h
  · intro h
    obtain ⟨ph, e⟩ := h.exists_phrase
    exact ⟨_, _, by rw [ofString, ofTokens, e, Parse.program_complete]⟩

theorem program_root {p q : Parser} {root : Node} (h : Parse.program p = .done root q) :
    ∃ tag items, root = .list tag .declarations items := by
  simp only [Parse.program, Parse.node, Parse.bind_eq_done, Parse.pure_eq_done] at h
  obtain ⟨pos, p₁, -, items, p₂, -, root', p₃, h₃, t, p₄, -, rfl, -⟩ := h
  obtain ⟨rfl, -⟩ := Parsed.done.inj h₃
  exact ⟨_, items, rfl⟩

/-- The first reading of a text gives a row of declarations, and equally reports no departure from
the grammar, exactly when the kinds of its tokens are a sentence of the grammar. -/
theorem parse_accepts_iff (source : String) :
    ((∃ tag items, (ofString source).parse.1 = .list tag .declarations items) ↔
      (Ebnf.rule .program).Derives ((Cursor.ofString source).tokens.map Token.kind)) ∧
    ((∀ x ∈ (ofString source).parse.2.diagnostics, x.isSyntax = false) ↔
      (Ebnf.rule .program).Derives ((Cursor.ofString source).tokens.map Token.kind)) := by
  rw [← program_done_iff, parse]
  have hr : Parse.Reports Parse.program := inferInstance
  cases h : Parse.program (ofString source) with
  | done root q =>
    obtain ⟨xs, e, hx⟩ := hr.done h
    refine ⟨iff_of_true (program_root h) ⟨root, q, rfl⟩, iff_of_true ?_ ⟨root, q, rfl⟩⟩
    have hxs : q.diagnostics = xs := e
    simpa only [hxs] using hx
  | stuck pos q =>
    obtain ⟨d, e, -, -, hq⟩ := hr.stuck h
    refine ⟨iff_of_false (by simp) (by simp), iff_of_false (fun hs => ?_) (by simp)⟩
    have := hs (.unexpected pos e q.current.kind) (by simp [hq])
    cases this

end Parser

end Crux
