import Crux.Proofs.Scope.Accepted
import Crux.Proofs.Scope.Resolution
import Crux.Proofs.Source.Word

namespace Crux

theorem mark_ne_identifier (c : Char) (rest : List Char) : (mark c rest).1 ≠ .identifier := by
  have hpair : ∀ d kind, Kind.ofPair? c d = some kind → kind ≠ .identifier := by
    intro d kind h
    unfold Kind.ofPair? at h
    split at h <;> cases h <;> decide
  unfold mark
  split
  · rename_i kind d h
    obtain ⟨d', -, h⟩ := Option.bind_eq_some_iff.mp h
    obtain ⟨kind', h, e⟩ := Option.map_eq_some_iff.mp h
    cases e
    exact hpair d kind h
  · show (Kind.ofChar? c).getD .error ≠ .identifier
    unfold Kind.ofChar?
    split <;> decide

theorem isWord_of_munch {c : Char} {rest : List Char} (h : (munch c rest).1 = .identifier) :
    isWord (String.ofList (munch c rest).2) := by
  unfold munch at h ⊢
  split at h
  · rename_i hc
    rw [if_pos hc]
    simp [isWord, hc]
  · split at h
    · unfold number at h
      dsimp only at h
      split at h <;> cases h
    · exact absurd h (mark_ne_identifier c rest)

namespace Cursor

variable {c : Cursor} {t : Token}

theorem isWord_next (h : c.next.1.kind = .identifier) : isWord c.next.1.lexeme := by
  unfold next at h ⊢
  dsimp only at h ⊢
  split
  · rename_i e
    simp [e, Token.eof] at h
  · rename_i ch rest e
    rw [e] at h
    exact isWord_of_munch h

theorem isWord_of_mem (h : t ∈ c.tokens) (hk : t.kind = .identifier) : isWord t.lexeme := by
  unfold tokens at h
  fun_induction scan c with
  | case1 c _ =>
    obtain rfl := List.mem_singleton.mp h
    exact isWord_next hk
  | case2 c _ tokens last hscan ih =>
    obtain rfl | h := List.mem_cons.mp h
    · exact isWord_next hk
    · rw [hscan] at ih
      exact ih h

end Cursor

theorem Parser.isWord_name {source : String} (h : (ofString source).parse.2.diagnostics = [])
    {n : Node} (hn : n ∈ (ofString source).parse.1.preorder) {s : Symbol} (hs : s ∈ n.symbols) :
    isWord s.name := by
  obtain ⟨ph, e, hroot, -⟩ := exists_phrase h
  obtain ⟨⟨told, hevents, hsub, hnames, -⟩, -⟩ := ph.build_resolved
  rw [hroot] at hn
  have hmem : s ∈ ((ph.build .initial).1.events .builtins).map Event.symbol := by
    rw [Node.map_events]
    exact List.mem_flatMap.mpr ⟨n, hn, hs⟩
  rw [← hevents, List.map_map] at hmem
  obtain ⟨p, hp, rfl⟩ := List.mem_map.mp hmem
  obtain ⟨hk, hl⟩ := hnames p hp
  rw [Function.comp_apply, ← hl]
  have htoken : p.1 ∈ (Cursor.ofString source).tokens := by
    rw [e]
    exact hsub.subset (List.mem_map_of_mem hp)
  exact Cursor.isWord_of_mem htoken hk

end Crux
