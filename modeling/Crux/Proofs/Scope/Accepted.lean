import Crux.Proofs.Grammar.Accepts
import Crux.Proofs.Phrase.Numbering
import Crux.Proofs.Scope.Tree

namespace Crux

/-- What the tree of a text that is read without any report is like. -/
structure Node.Accepted (root : Node) : Prop where
  fits : Node.Scoped .program .builtins root
  numbered : ∃ k, root.ids = List.range' 0 k
  /-- The first numbers belong to the builtin functions. -/
  ordered : ∃ k, Rising Builtin.all.length root.symbolIds k

namespace Node.Accepted

variable {root : Node}

theorem nodup_ids (h : root.Accepted) : root.ids.Nodup := by
  obtain ⟨k, hk⟩ := h.numbered
  rw [hk]
  exact List.nodup_range'

end Node.Accepted

theorem Parser.exists_phrase {source : String} (h : (ofString source).parse.2.diagnostics = []) :
    ∃ ph : ProgramPhrase, (Cursor.ofString source).tokens = ph.tokens ∧
      (ofString source).parse.1 = (ph.build .initial).1 ∧
      (ph.build .initial).2.diagnostics = [] := by
  have hd : ∃ root q, Parse.program (ofString source) = .done root q := by
    rw [parse] at h
    cases hp : Parse.program (ofString source) with
    | done root q => exact ⟨root, q, rfl⟩
    | stuck pos q =>
      have hr : Parse.Reports Parse.program := inferInstance
      obtain ⟨d, e, -, -, hq⟩ := hr.stuck hp
      have hnil : q.diagnostics = [] := by rwa [hp] at h
      simp [hq] at hnil
  obtain ⟨ph, e⟩ := ((program_done_iff source).mp hd).exists_phrase
  have hp := parse_ofTokens ph
  rw [← e, ← ofString] at hp
  rw [hp] at h ⊢
  exact ⟨ph, e, rfl, h⟩

theorem Parser.parse_accepted {source : String} (h : (ofString source).parse.2.diagnostics = []) :
    (ofString source).parse.1.Accepted := by
  obtain ⟨ph, -, hroot, hq⟩ := exists_phrase h
  rw [hroot]
  obtain ⟨k, -, hids⟩ := ph.build_span .initial
  exact ⟨ph.build_scoped hq, ⟨k, hids⟩, _, ph.build_rising .initial⟩

end Crux
