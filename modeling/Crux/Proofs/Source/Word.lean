import Crux.Token.Scan

namespace Crux

def Separates (rest : List Char) : Prop := ∀ c ∈ rest.head?, c = ' '

/-- A text that is scanned whole, as one token of the kind, where nothing sticks to it. -/
structure Kind.Reads (k : Kind) (text : String) : Prop where
  ne_eof : k ≠ .eof
  munch : ∃ c cs, text.toList = c :: cs ∧ ∀ rest, Separates rest →
    gapLength false (c :: (cs ++ rest)) = 0 ∧ munch c (cs ++ rest) = (k, c :: cs)

theorem Separates.cases {rest : List Char} (h : Separates rest) :
    rest = [] ∨ ∃ others, rest = ' ' :: others := by
  cases rest with
  | nil => exact .inl rfl
  | cons c others => exact .inr ⟨others, by rw [h c rfl]⟩

theorem Separates.takeWhile {p : Char → Bool} (hp : p ' ' = false) {cs rest : List Char}
    (hr : Separates rest) (hc : ∀ c ∈ cs, p c) : (cs ++ rest).takeWhile p = cs := by
  rw [List.takeWhile_append_of_pos hc]
  obtain rfl | ⟨others, rfl⟩ := hr.cases
  · simp
  · simp [hp]

def isWord (text : String) : Bool :=
  match text.toList with
  | [] => false
  | c :: cs => isWordStart c && cs.all isWordPart

theorem not_mem_of_isWord {name : String} {c : Char} (h : isWord name) (hc : isWordPart c = false) :
    c ∉ name.toList := by
  unfold isWord at h
  split at h
  · rename_i e
    simp [e]
  · rename_i first rest e
    rw [e, List.mem_cons]
    simp only [Bool.and_eq_true, List.all_eq_true] at h
    rintro (rfl | hm)
    · simp_all [isWordStart, isWordPart]
    · exact absurd (h.2 c hm) (by simp [hc])

namespace Kind

theorem reads_mark {k : Kind} (h : k ∈ marks) : k.Reads k.spelling := by
  refine ⟨by rintro rfl; revert h; decide, ?_⟩
  cases k
  all_goals first
    | exact absurd h (by decide)
    | refine ⟨_, _, rfl, fun rest hr => ?_⟩
      obtain rfl | ⟨others, rfl⟩ := hr.cases
      · exact ⟨rfl, rfl⟩
      · exact ⟨rfl, rfl⟩

theorem gapLength_eq_zero {p : Char → Bool}
    (hp : [' ', '\t', '\r', '\n', '/'].any p = false) {c : Char} (h : p c) (rest : List Char) :
    gapLength false (c :: rest) = 0 := by
  have hne : ∀ x ∈ [' ', '\t', '\r', '\n', '/'], c ≠ x := by
    rintro x hx rfl
    exact List.any_eq_false.mp hp c hx h
  simp only [List.forall_mem_cons] at hne
  simp [gapLength, isBlank, hne]

theorem ofWord_ne_eof (text : String) : ofWord text ≠ .eof := by
  unfold ofWord
  cases h : keyword? text with
  | none => simp
  | some k =>
    rintro rfl
    have := List.mem_of_find?_eq_some h
    revert this
    decide

theorem reads_word {text : String} (h : isWord text) : (ofWord text).Reads text := by
  unfold isWord at h
  refine ⟨ofWord_ne_eof text, ?_⟩
  cases ht : text.toList with
  | nil => simp [ht] at h
  | cons c cs =>
    simp only [ht, Bool.and_eq_true, List.all_eq_true] at h
    refine ⟨c, cs, rfl, fun rest hr => ⟨gapLength_eq_zero (by decide) h.1 _, ?_⟩⟩
    rw [Crux.munch, if_pos h.1, hr.takeWhile (by decide) h.2, ← ht]
    dsimp only
    rw [String.ofList_toList]

theorem reads_keyword {k : Kind} (h : k ∈ keywords) : k.Reads k.spelling := by
  have hk : ∀ k ∈ keywords, isWord k.spelling ∧ ofWord k.spelling = k := by decide
  obtain ⟨hw, he⟩ := hk k h
  have hr := reads_word hw
  rwa [he] at hr

theorem reads_fixed {k : Kind} (h : k ∈ fixed) : k.Reads k.spelling := by
  obtain h | h := List.mem_append.mp h
  · exact reads_keyword h
  · exact reads_mark h

theorem reads_identifier {text : String} (h : isWord text) (hk : keyword? text = none) :
    identifier.Reads text := by
  have hr := reads_word h
  rwa [ofWord, hk] at hr

theorem isWordStart_of_isDigit {c : Char} (h : c.isDigit) : isWordStart c = false := by
  have hn : ∀ n : Fin 58, 48 ≤ n.val → Text.within n.val Text.alphabetic = false := by decide
  have hd := h
  simp only [Char.isDigit, Bool.and_eq_true, decide_eq_true_eq] at hd
  have hlt : c.toNat < 58 := Nat.lt_succ_of_le hd.2
  have hu : c ≠ '_' := by
    rintro rfl
    exact absurd h (by decide)
  simp only [isWordStart, hu, decide_false, Bool.false_or]
  exact hn ⟨c.toNat, hlt⟩ hd.1

theorem munch_digit {c : Char} (h : c.isDigit) (rest : List Char) :
    Crux.munch c rest =
      number (c :: rest.takeWhile Char.isDigit) (rest.dropWhile Char.isDigit) := by
  rw [Crux.munch, if_neg (by simp [isWordStart_of_isDigit h]), if_pos h]

theorem reads_integer {text : String} (hne : text ≠ "") (hd : text.toList.all Char.isDigit) :
    integer.Reads text := by
  refine ⟨nofun, ?_⟩
  cases ht : text.toList with
  | nil => exact absurd (String.toList_eq_nil_iff.mp ht) hne
  | cons c cs =>
    simp only [ht, List.all_cons, Bool.and_eq_true, List.all_eq_true] at hd
    refine ⟨c, cs, rfl, fun rest hr => ⟨gapLength_eq_zero (by decide) hd.1 _, ?_⟩⟩
    rw [munch_digit hd.1, hr.takeWhile (by decide) hd.2, List.dropWhile_append_of_pos hd.2]
    obtain rfl | ⟨others, rfl⟩ := hr.cases
    · simp [number, fraction]
    · have hb : (' ' : Char).isDigit = false := by decide
      simp [number, fraction, hb]

theorem reads_float {whole part : String} (hne : whole ≠ "") (hw : whole.toList.all Char.isDigit)
    (hp : part.toList.all Char.isDigit) : float.Reads (whole ++ "." ++ part) := by
  refine ⟨nofun, ?_⟩
  cases ht : whole.toList with
  | nil => exact absurd (String.toList_eq_nil_iff.mp ht) hne
  | cons c cs =>
    simp only [ht, List.all_cons, Bool.and_eq_true, List.all_eq_true] at hw hp
    refine ⟨c, cs ++ '.' :: part.toList, by simp [ht], fun rest hr =>
      ⟨gapLength_eq_zero (by decide) hw.1 _, ?_⟩⟩
    have hd : ('.' : Char).isDigit = false := by decide
    rw [munch_digit hw.1, List.append_assoc, List.takeWhile_append_of_pos hw.2,
      List.dropWhile_append_of_pos hw.2]
    simp [number, fraction, hd, hr.takeWhile (by decide) hp]

end Kind

namespace Source

structure Word where
  kind : Kind
  text : String
  reads : kind.Reads text

namespace Word

def join (ws : List Word) : String := " ".intercalate (ws.map text)

theorem toList_join (w : Word) (ws : List Word) :
    (join (w :: ws)).toList = w.text.toList ++ ws.flatMap fun w => ' ' :: w.text.toList := by
  induction ws generalizing w with
  | nil => simp [join]
  | cons u ws ih =>
    have h : join (w :: u :: ws) = w.text ++ " " ++ join (u :: ws) := String.intercalate_cons_cons
    rw [h, String.toList_append, String.toList_append, ih]
    simp

end Word

def Spells (ts : List Token) (ws : List Word) : Prop :=
  ts.map (fun t => (t.kind, t.lexeme)) = ws.map (fun w => (w.kind, w.text))

namespace Spells

@[simp] theorem nil_iff {ts : List Token} : Spells ts [] ↔ ts = [] := by simp [Spells]

theorem append_iff {ts : List Token} {us vs : List Word} :
    Spells ts (us ++ vs) ↔ ∃ ts₁ ts₂, ts = ts₁ ++ ts₂ ∧ Spells ts₁ us ∧ Spells ts₂ vs := by
  simp only [Spells, List.map_append, List.map_eq_append_iff]

theorem cons_iff {ts : List Token} {w : Word} {ws : List Word} :
    Spells ts (w :: ws) ↔
      ∃ t rest, ts = t :: rest ∧ t.kind = w.kind ∧ t.lexeme = w.text ∧ Spells rest ws := by
  simp [Spells, List.map_eq_cons_iff, and_assoc]

end Spells

end Source

open Source

namespace Cursor

theorem next_word {c : Cursor} {gap rest : List Char} {w : Word} (hg : gap = [] ∨ gap = [' '])
    (hr : Separates rest) (h : c.rest = gap ++ (w.text.toList ++ rest)) :
    c.next.1.kind = w.kind ∧ c.next.1.lexeme = w.text ∧ c.next.2.rest = rest := by
  obtain ⟨x, xs, hw, hm⟩ := w.reads.munch
  obtain ⟨hgap, hm⟩ := hm rest hr
  have hlen : gapLength false c.rest = gap.length := by
    rw [h, hw]
    obtain rfl | rfl := hg
    · exact hgap
    · simp only [List.cons_append, List.nil_append] at hgap ⊢
      rw [gapLength, hgap]
      rfl
  have ht : c.toToken.rest = x :: (xs ++ rest) := by
    rw [toToken, skip_rest, hlen, h, hw, List.drop_left, List.cons_append]
  simp only [next, ht, hm, skip_rest]
  refine ⟨trivial, ?_, ?_⟩
  · rw [← hw, String.ofList_toList]
  · rw [← List.cons_append, List.drop_left]

theorem next_blank {c : Cursor} (h : c.rest = []) : c.tokens = [.eof c.pos] := by
  have hn : c.next.1 = .eof c.pos := by
    simp [next, toToken, skip, h, gapLength]
  rw [tokens, scan, if_pos (by rw [hn]; rfl), hn]

theorem tokens_words {ws : List Word} {w : Word} (gap : List Char) {c : Cursor}
    (hg : gap = [] ∨ gap = [' '])
    (h : c.rest = gap ++ (w.text.toList ++ ws.flatMap fun w => ' ' :: w.text.toList)) :
    ∃ ts pos, c.tokens = ts ++ [.eof pos] ∧ Spells ts (w :: ws) := by
  induction ws generalizing w gap c with
  | nil =>
    obtain ⟨hk, hl, hr⟩ := next_word hg (by simp [Separates]) h
    refine ⟨[c.next.1], c.next.2.pos, ?_, Spells.cons_iff.mpr ⟨_, _, rfl, hk, hl, rfl⟩⟩
    rw [tokens, scan, if_neg (hk ▸ w.reads.ne_eof)]
    exact congrArg (c.next.1 :: ·) (next_blank hr)
  | cons u ws ih =>
    obtain ⟨hk, hl, hr⟩ := next_word hg (by simp [Separates]) h
    obtain ⟨ts, pos, ht, hs⟩ := ih [' '] (.inr rfl) hr
    refine ⟨c.next.1 :: ts, pos, ?_, Spells.cons_iff.mpr ⟨_, _, rfl, hk, hl, hs⟩⟩
    rw [tokens, scan, if_neg (hk ▸ w.reads.ne_eof)]
    exact congrArg (c.next.1 :: ·) ht

/-- Words joined by blanks are scanned back. -/
theorem tokens_join (ws : List Word) :
    ∃ ts pos, (ofString (Word.join ws)).tokens = ts ++ [.eof pos] ∧ Spells ts ws := by
  cases ws with
  | nil => exact ⟨[], _, next_blank rfl, rfl⟩
  | cons w ws => exact tokens_words [] (.inl rfl) (Word.toList_join w ws)

end Cursor

end Crux
