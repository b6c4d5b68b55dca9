import Crux.Proofs.Token.Segments

namespace Crux

namespace Kind

theorem Fits.blank_not_mem {k : Kind} {text : String} (h : k.Fits text) {b : Char}
    (hb : isBlank b) : b ∉ text.toList := by
  have hb : b = ' ' ∨ b = '\t' ∨ b = '\r' ∨ b = '\n' := by
    simpa [isBlank, or_assoc] using hb
  obtain ⟨hpart, hdigit, hpoint, hfixed⟩ : isWordPart b = false ∧ b.isDigit = false ∧ b ≠ '.' ∧
      ∀ k ∈ fixed, b ∉ k.spelling.toList := by
    obtain rfl | rfl | rfl | rfl := hb <;> decide
  have hdigits {text : String} (hd : text.toList.all Char.isDigit) : b ∉ text.toList := fun hm =>
    absurd (List.all_eq_true.mp hd b hm) (by simp [hdigit])
  cases h with
  | mark hk => exact hfixed k (List.mem_append_right _ hk)
  | keyword hk => exact hfixed k (List.mem_append_left _ hk)
  | identifier hw => exact not_mem_of_isWord hw hpart
  | integer _ hd => exact hdigits hd
  | float _ hw hp => simp [hdigits hw, hdigits hp, hpoint]

theorem Reads.blank_not_mem {k : Kind} {text : String} (h : k.Reads text) {b : Char}
    (hb : isBlank b) : b ∉ text.toList := by
  obtain ⟨c, cs, ht, hr⟩ := h.munch
  obtain ⟨hgap, hmunch⟩ := hr [] (by rintro c ⟨⟩)
  rw [List.append_nil] at hgap hmunch
  obtain he | hf := munch_cases c cs
  · -- A single character, and it stands in no gap.
    have htext : text.toList = [c] := ht.trans (congrArg Prod.snd (hmunch.symm.trans he))
    rw [htext, List.mem_singleton]
    rintro rfl
    simp [gapLength, hb] at hgap
  · rw [hmunch, ← ht, String.ofList_toList] at hf
    exact hf.blank_not_mem hb

theorem reads_error {c : Char} {rest : List Char} (hb : isBlank c = false)
    (h : (munch c rest).1 = .error) : error.Reads (String.ofList [c]) := by
  have hnone := (munch_error_iff c rest).mp h
  -- A pattern that fits more than the character would fit the blank behind it.
  have hone {k : Kind} {text : String} {rest' : List Char} (hk : k.Fits text)
      (hp : text.toList <+: c :: rest') (hr : Separates rest') : text.toList <+: c :: rest := by
    obtain ⟨d, ds, ht, -⟩ := hk.reads.munch
    rw [ht] at hp ⊢
    obtain ⟨rfl, hds⟩ := List.cons_prefix_cons.mp hp
    cases ds with
    | nil => exact List.cons_prefix_cons.mpr ⟨rfl, List.nil_prefix⟩
    | cons e es =>
      obtain rfl | ⟨others, rfl⟩ := hr.cases
      · simp at hds
      · obtain ⟨rfl, -⟩ := List.cons_prefix_cons.mp hds
        exact absurd (by simp [ht]) (hk.blank_not_mem (b := ' ') (by decide))
  have hslash : c ≠ '/' := by
    rintro rfl
    exact hnone .div "/" (.mark (by decide)) (List.cons_prefix_cons.mpr ⟨rfl, List.nil_prefix⟩)
  refine ⟨by decide, c, [], by simp, fun rest' hr => ⟨by simp [gapLength, hb, hslash], ?_⟩⟩
  have herror : (munch c rest').1 = .error :=
    (munch_error_iff c rest').mpr fun k text hk hp => hnone k text hk (hone hk hp hr)
  exact Prod.ext herror (munch_error c rest' herror)

end Kind

namespace Cursor

theorem next_reads (c : Cursor) (h : c.next.1.kind ≠ .eof) :
    c.next.1.kind.Reads c.next.1.lexeme := by
  obtain ⟨gap, after, -, -, hb, ⟨-, hn⟩ | ⟨ch, rest, t, tail, rfl, hm, -, -, hn⟩⟩ := c.next_cases
  · rw [hn] at h
    exact absurd rfl h
  · have hkind : (munch ch rest).1 = t.kind := congrArg Prod.fst hm
    have htext : String.ofList (munch ch rest).2 = t.lexeme := by
      rw [hm, String.ofList_toList]
    rw [hn]
    dsimp only
    rw [← hkind, ← htext]
    obtain he | hf := munch_cases ch rest
    · rw [he]
      exact Kind.reads_error (hb.1 ch rfl) (congrArg Prod.fst he)
    · exact hf.reads

theorem reads_of_mem {c : Cursor} {t : Token} (ht : t ∈ c.tokens) (hk : t.kind ≠ .eof) :
    t.kind.Reads t.lexeme := by
  unfold tokens at ht
  fun_induction scan c with
  | case1 c _ =>
    obtain rfl := List.mem_singleton.mp ht
    exact c.next_reads hk
  | case2 c _ tokens last hscan ih =>
    obtain rfl | ht := List.mem_cons.mp ht
    · exact c.next_reads hk
    · rw [hscan] at ih
      exact ih ht

end Cursor

open Source

theorem Source.exists_spells {ts : List Token} (h : ∀ t ∈ ts, t.kind.Reads t.lexeme) :
    ∃ ws : List Word, Spells ts ws := by
  induction ts with
  | nil => exact ⟨[], rfl⟩
  | cons t ts ih =>
    obtain ⟨ht, hts⟩ := List.forall_mem_cons.mp h
    obtain ⟨ws, hws⟩ := ih hts
    exact ⟨⟨t.kind, t.lexeme, ht⟩ :: ws, Spells.cons_iff.mpr ⟨t, ts, rfl, rfl, rfl, hws⟩⟩

theorem Source.Spells.map_lexeme {ts : List Token} {ws : List Word} (h : Spells ts ws) :
    ts.map Token.lexeme = ws.map Word.text := by
  have := congrArg (List.map Prod.snd) h
  simpa [Function.comp_def] using this

namespace Cursor

def proper (source : String) : List Token :=
  (ofString source).tokens.filter fun t => t.kind ≠ .eof

/-- A text written anew: the texts of its tokens in a row, with single blanks between them. -/
def respaced (source : String) : String := " ".intercalate ((proper source).map Token.lexeme)

theorem tokens_eq_proper (source : String) :
    ∃ pos, (ofString source).tokens = proper source ++ [.eof pos] := by
  obtain ⟨segments, last, -, -, hlie, hs⟩ := (ofString source).scan_segments [] rfl
  have htokens : (ofString source).tokens = segments.map Segment.token ++ [.eof _] :=
    congrArg Prod.fst hs
  have hkind : ∀ t ∈ segments.map Segment.token, decide (t.kind ≠ .eof) = true := by
    rw [List.forall_mem_map]
    intro p hp
    obtain ⟨front, back, e⟩ := List.append_of_mem hp
    exact decide_eq_true (hlie front p back e).1
  have hproper : proper source = segments.map Segment.token := by
    rw [proper, htokens, List.filter_append, List.filter_eq_self.mpr hkind]
    exact List.append_nil _
  exact ⟨_, by rw [hproper, htokens]⟩

theorem respaced_congr {source source' : String}
    (h : (ofString source).tokens.map (fun t => (t.kind, t.lexeme)) =
      (ofString source').tokens.map fun t => (t.kind, t.lexeme)) :
    respaced source = respaced source' := by
  have hlexemes (source : String) : (proper source).map Token.lexeme =
      (((ofString source).tokens.map fun t => (t.kind, t.lexeme)).filter
        fun x => x.1 ≠ .eof).map Prod.snd := by
    simp only [proper, List.filter_map, List.map_map]
    rfl
  rw [respaced, respaced, hlexemes, hlexemes, h]

/-- The text written anew has the same kinds and texts of tokens as the text itself, and writing it
once more changes nothing. -/
theorem tokens_respaced (source : String) :
    (ofString (respaced source)).tokens.map (fun t => (t.kind, t.lexeme)) =
        (ofString source).tokens.map (fun t => (t.kind, t.lexeme)) ∧
      respaced (respaced source) = respaced source := by
  obtain ⟨pos, htokens⟩ := tokens_eq_proper source
  have hreads : ∀ t ∈ proper source, t.kind.Reads t.lexeme := by
    intro t ht
    obtain ⟨hm, hk⟩ := List.mem_filter.mp ht
    exact reads_of_mem hm (of_decide_eq_true hk)
  obtain ⟨ws, hws⟩ := exists_spells hreads
  have hjoin : respaced source = Word.join ws := by
    rw [respaced, hws.map_lexeme, Word.join]
  obtain ⟨ts, pos', htokens', hts⟩ := tokens_join ws
  have hsame : (ofString (respaced source)).tokens.map (fun t => (t.kind, t.lexeme)) =
      (ofString source).tokens.map fun t => (t.kind, t.lexeme) := by
    rw [hjoin, htokens', htokens, List.map_append, List.map_append, hts, hws]
    rfl
  exact ⟨hsame, respaced_congr hsame⟩

end Cursor

end Crux
