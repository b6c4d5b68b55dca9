import Crux.Proofs.Source.Word

namespace Crux

/-- The texts that the pattern of a kind fits. Words that spell a keyword are no identifiers. -/
inductive Kind.Fits : Kind → String → Prop
  | mark {k : Kind} : k ∈ marks → Fits k k.spelling
  | keyword {k : Kind} : k ∈ keywords → Fits k k.spelling
  | identifier {text : String} : isWord text → (∀ k ∈ keywords, text ≠ k.spelling) →
      Fits .identifier text
  | integer {text : String} : text ≠ "" → text.toList.all Char.isDigit → Fits .integer text
  | float {whole part : String} : whole ≠ "" → whole.toList.all Char.isDigit →
      part.toList.all Char.isDigit → Fits .float (whole ++ "." ++ part)

namespace Kind

theorem keyword?_eq_none {text : String} :
    keyword? text = none ↔ ∀ k ∈ keywords, text ≠ k.spelling := by
  rw [keyword?, List.find?_eq_none]
  simp only [decide_eq_true_eq]
  exact forall₂_congr fun k _ => not_congr eq_comm

theorem keyword?_eq_some {text : String} {k : Kind} (h : keyword? text = some k) :
    k ∈ keywords ∧ text = k.spelling :=
  ⟨List.mem_of_find?_eq_some h, by simpa [eq_comm] using List.find?_some h⟩

theorem isWord_keyword {k : Kind} (h : k ∈ keywords) : isWord k.spelling := by
  revert k
  decide

namespace Fits

variable {k k' : Kind} {text : String}

theorem reads (h : k.Fits text) : k.Reads text := by
  cases h with
  | mark hk => exact reads_mark hk
  | keyword hk => exact reads_keyword hk
  | identifier hw hk => exact reads_identifier hw (keyword?_eq_none.mpr hk)
  | integer hne hd => exact reads_integer hne hd
  | float hne hw hp => exact reads_float hne hw hp

theorem kind_eq (h : k.Fits text) (h' : k'.Fits text) : k = k' := by
  obtain ⟨c, cs, e, hm⟩ := h.reads.munch
  obtain ⟨c', cs', e', hm'⟩ := h'.reads.munch
  obtain ⟨rfl, rfl⟩ := List.cons.inj (e.symm.trans e')
  have hend : Separates [] := by simp [Separates]
  exact congrArg Prod.fst ((hm [] hend).2.symm.trans (hm' [] hend).2)

theorem ne_error (h : k.Fits text) : k ≠ .error := by
  cases h with
  | mark hk | keyword hk =>
    rintro rfl
    revert hk
    decide
  | _ => simp

theorem isKeyword_iff (h : k.Fits text) :
    k ∈ keywords ↔ ∃ k' ∈ keywords, text = k'.spelling := by
  constructor
  · intro hk
    cases h with
    | mark hm =>
      have hd : ∀ k ∈ marks, k ∉ keywords := by decide
      exact absurd hk (hd k hm)
    | keyword => exact ⟨k, hk, rfl⟩
    | _ => exact absurd hk (by decide)
  · rintro ⟨k', hk', rfl⟩
    rwa [h.kind_eq (.keyword hk')]

end Fits

theorem fits_ofWord {text : String} (h : isWord text) : (ofWord text).Fits text := by
  unfold ofWord
  cases hk : keyword? text with
  | none => exact .identifier h (keyword?_eq_none.mp hk)
  | some k =>
    obtain ⟨hm, rfl⟩ := keyword?_eq_some hk
    exact .keyword hm

theorem ofChar?_eq_some {c : Char} {k : Kind} (h : ofChar? c = some k) :
    k.Fits (String.ofList [c]) ∧ isWordStart c = false ∧ c.isDigit = false := by
  unfold ofChar? at h
  split at h
  all_goals first
    | cases h; exact ⟨.mark (by decide), by decide, by decide⟩
    | cases h

theorem ofPair?_eq_some {c d : Char} {k : Kind} (h : ofPair? c d = some k) :
    k.Fits (String.ofList [c, d]) ∧ isWordStart c = false ∧ c.isDigit = false := by
  unfold ofPair? at h
  split at h
  all_goals first
    | cases h; exact ⟨.mark (by decide), by decide, by decide⟩
    | cases h

theorem spelling_mark {k : Kind} (h : k ∈ marks) :
    (∃ c, k.spelling.toList = [c] ∧ ofChar? c = some k) ∨
      ∃ c d, k.spelling.toList = [c, d] ∧ ofPair? c d = some k := by
  cases k
  all_goals first
    | exact absurd h (by decide)
    | exact .inl ⟨_, rfl, rfl⟩
    | exact .inr ⟨_, _, rfl, rfl⟩

end Kind

open Kind

theorem mark_pair {c d : Char} {k : Kind} (h : ofPair? c d = some k) (rest : List Char) :
    mark c (d :: rest) = (k, [c, d]) := by
  simp [mark, h]

theorem mark_cases (c : Char) (rest : List Char) :
    (∃ k d tail, rest = d :: tail ∧ ofPair? c d = some k ∧ mark c rest = (k, [c, d])) ∨
      mark c rest = ((ofChar? c).getD .error, [c]) := by
  cases rest with
  | nil => exact .inr rfl
  | cons d rest =>
    cases h : ofPair? c d with
    | none => exact .inr (by simp [mark, h])
    | some k => exact .inl ⟨k, d, rest, rfl, h, mark_pair h rest⟩

theorem fraction_cases (rest : List Char) :
    fraction rest = [] ∨
      ∃ tail, rest = '.' :: tail ∧ fraction rest = '.' :: tail.takeWhile Char.isDigit := by
  unfold fraction
  split
  · exact .inr ⟨_, rfl, rfl⟩
  · exact .inl rfl

theorem fits_number {whole : List Char} (hne : whole ≠ []) (hw : whole.all Char.isDigit)
    (rest : List Char) : (number whole rest).1.Fits (String.ofList (number whole rest).2) := by
  obtain h | ⟨tail, -, h⟩ := fraction_cases rest
  · rw [number, h]
    exact .integer (by simpa using hne) (by simpa using hw)
  · have hsplit : String.ofList (whole ++ '.' :: tail.takeWhile Char.isDigit) =
        String.ofList whole ++ "." ++ String.ofList (tail.takeWhile Char.isDigit) := by
      simp [← String.toList_inj]
    rw [number, h]
    dsimp only
    rw [hsplit]
    exact .float (by simpa using hne) (by simpa using hw) (by simp)

theorem munch_cases (c : Char) (rest : List Char) :
    munch c rest = (.error, [c]) ∨ (munch c rest).1.Fits (String.ofList (munch c rest).2) := by
  by_cases hw : isWordStart c
  · right
    rw [munch, if_pos hw]
    exact fits_ofWord (by simp [isWord, hw])
  · by_cases hd : c.isDigit
    · right
      rw [munch_digit hd]
      exact fits_number (by simp) (by simp [hd]) _
    · rw [munch, if_neg hw, if_neg hd]
      obtain ⟨k, d, -, -, hk, hm⟩ | hm := mark_cases c rest
      · rw [hm]
        exact .inr (ofPair?_eq_some hk).1
      · rw [hm]
        cases hk : ofChar? c with
        | none => exact .inl rfl
        | some k => exact .inr (ofChar?_eq_some hk).1

theorem munch_ne_eof (c : Char) (rest : List Char) : (munch c rest).1 ≠ .eof := by
  obtain h | h := munch_cases c rest
  · simp [h]
  · exact h.reads.ne_eof

theorem number_prefix (whole rest : List Char) : (number whole rest).2 <+: whole ++ rest := by
  rw [number, List.prefix_append_right_inj]
  obtain h | ⟨tail, rfl, h⟩ := fraction_cases rest
  · rw [h]
    exact List.nil_prefix
  · rw [h]
    exact List.cons_prefix_cons.mpr ⟨rfl, List.takeWhile_prefix _⟩

theorem munch_prefix (c : Char) (rest : List Char) : (munch c rest).2 <+: c :: rest := by
  by_cases hw : isWordStart c
  · rw [munch, if_pos hw]
    exact List.cons_prefix_cons.mpr ⟨rfl, List.takeWhile_prefix _⟩
  · by_cases hd : c.isDigit
    · have h := number_prefix (c :: rest.takeWhile Char.isDigit) (rest.dropWhile Char.isDigit)
      rwa [List.cons_append, List.takeWhile_append_dropWhile, ← munch_digit hd] at h
    · rw [munch, if_neg hw, if_neg hd]
      obtain ⟨k, d, tail, rfl, -, hm⟩ | hm := mark_cases c rest
      · rw [hm]
        exact List.prefix_append [c, d] tail
      · rw [hm]
        exact List.prefix_append [c] rest

theorem length_le_takeWhile {p : Char → Bool} {ds rest : List Char} (h : ds <+: rest)
    (hd : ∀ d ∈ ds, p d) : ds.length ≤ (rest.takeWhile p).length := by
  obtain ⟨tail, rfl⟩ := h
  rw [List.takeWhile_append_of_pos hd, List.length_append]
  exact Nat.le_add_right _ _

section Longest

variable {k : Kind} {text : String} {c : Char} {rest : List Char}

theorem mark_le (hk : k ∈ marks) (h : k.spelling.toList <+: c :: rest) :
    (munch c rest).1 ≠ .error ∧ k.spelling.toList.length ≤ (munch c rest).2.length := by
  obtain ⟨d, hs, hd⟩ | ⟨d, e, hs, hd⟩ := spelling_mark hk
  · obtain ⟨hf, hw, hn⟩ := ofChar?_eq_some hd
    rw [hs] at h ⊢
    obtain ⟨rfl, -⟩ := List.cons_prefix_cons.mp h
    refine ⟨?_, munch_length_pos d rest⟩
    rw [munch, if_neg (by simp [hw]), if_neg (by simp [hn])]
    obtain ⟨k', e, -, -, hk', hm⟩ | hm := mark_cases d rest
    · rw [hm]
      exact (ofPair?_eq_some hk').1.ne_error
    · rw [hm, hd]
      exact hf.ne_error
  · obtain ⟨hf, hw, hn⟩ := ofPair?_eq_some hd
    rw [hs] at h ⊢
    obtain ⟨rfl, tail, rfl⟩ := List.cons_prefix_cons.mp h
    rw [munch, if_neg (by simp [hw]), if_neg (by simp [hn]), List.singleton_append, mark_pair hd]
    exact ⟨hf.ne_error, Nat.le_refl _⟩

theorem word_le (hw : isWord text)
    (h : text.toList <+: c :: rest) :
    (munch c rest).1 ≠ .error ∧ text.toList.length ≤ (munch c rest).2.length := by
  unfold isWord at hw
  cases ht : text.toList with
  | nil => simp [ht] at hw
  | cons d ds =>
    simp only [ht, Bool.and_eq_true, List.all_eq_true] at hw
    rw [ht] at h
    obtain ⟨rfl, hds⟩ := List.cons_prefix_cons.mp h
    rw [munch, if_pos hw.1]
    refine ⟨(fits_ofWord (by simp [isWord, hw.1])).ne_error, ?_⟩
    exact Nat.succ_le_succ (length_le_takeWhile hds hw.2)

theorem integer_le (hne : text ≠ "") (hd : text.toList.all Char.isDigit)
    (h : text.toList <+: c :: rest) :
    (munch c rest).1 ≠ .error ∧ text.toList.length ≤ (munch c rest).2.length := by
  cases ht : text.toList with
  | nil => exact absurd (String.toList_eq_nil_iff.mp ht) hne
  | cons d ds =>
    simp only [ht, List.all_cons, Bool.and_eq_true, List.all_eq_true] at hd
    rw [ht] at h
    obtain ⟨rfl, hds⟩ := List.cons_prefix_cons.mp h
    rw [munch_digit hd.1]
    refine ⟨(fits_number (by simp) (by simp [hd.1]) _).ne_error, ?_⟩
    rw [number, List.length_append]
    exact Nat.le_add_right_of_le (Nat.succ_le_succ (length_le_takeWhile hds hd.2))

theorem float_le {whole part : String} (hne : whole ≠ "") (hw : whole.toList.all Char.isDigit)
    (hp : part.toList.all Char.isDigit) (h : (whole ++ "." ++ part).toList <+: c :: rest) :
    (munch c rest).1 ≠ .error ∧
      (whole ++ "." ++ part).toList.length ≤ (munch c rest).2.length := by
  cases ht : whole.toList with
  | nil => exact absurd (String.toList_eq_nil_iff.mp ht) hne
  | cons d ds =>
    simp only [ht, List.all_cons, Bool.and_eq_true, List.all_eq_true] at hw hp
    have hs : (whole ++ "." ++ part).toList = d :: (ds ++ '.' :: part.toList) := by simp [ht]
    rw [hs] at h ⊢
    obtain ⟨rfl, tail, rfl⟩ := List.cons_prefix_cons.mp h
    have hpoint : ('.' : Char).isDigit = false := by decide
    rw [munch_digit hw.1]
    refine ⟨(fits_number (by simp) (by simp [hw.1]) _).ne_error, ?_⟩
    rw [List.append_assoc, List.takeWhile_append_of_pos hw.2, List.dropWhile_append_of_pos hw.2]
    simp [number, fraction, hpoint, List.takeWhile_append_of_pos hp]

theorem Kind.Fits.le_munch (hf : k.Fits text) (h : text.toList <+: c :: rest) :
    (munch c rest).1 ≠ .error ∧ text.toList.length ≤ (munch c rest).2.length := by
  cases hf with
  | mark hk => exact mark_le hk h
  | keyword hk => exact word_le (isWord_keyword hk) h
  | identifier hw => exact word_le hw h
  | integer hne hd => exact integer_le hne hd h
  | float hne hw hp => exact float_le hne hw hp h

end Longest

/-- The text fits a pattern at the front of another one, of which no pattern fits more. -/
structure Longest (whole : List Char) (k : Kind) (text : String) : Prop where
  fits : k.Fits text
  front : text.toList <+: whole
  length_le : ∀ (k' : Kind) (text' : String), k'.Fits text' → text'.toList <+: whole →
    text'.toList.length ≤ text.toList.length

theorem Longest.unique {whole : List Char} {k k' : Kind} {text text' : String}
    (h : Longest whole k text) (h' : Longest whole k' text') : k' = k ∧ text' = text := by
  have hle := h.length_le k' text' h'.fits h'.front
  have hge := h'.length_le k text h.fits h.front
  have hp : text'.toList <+: text.toList := List.prefix_of_prefix_length_le h'.front h.front hle
  obtain rfl : text' = text :=
    String.toList_inj.mp (hp.eq_of_length (Nat.le_antisymm hle hge))
  exact ⟨h'.fits.kind_eq h.fits, rfl⟩

/-- What is taken is the longest match. -/
theorem munch_longest (c : Char) (rest : List Char) (h : (munch c rest).1 ≠ .error) :
    Longest (c :: rest) (munch c rest).1 (String.ofList (munch c rest).2) := by
  obtain he | hf := munch_cases c rest
  · exact absurd (congrArg Prod.fst he) h
  · refine ⟨hf, by simpa using munch_prefix c rest, fun k text hk hp => ?_⟩
    simpa using (hk.le_munch hp).2

theorem munch_error (c : Char) (rest : List Char) (h : (munch c rest).1 = .error) :
    (munch c rest).2 = [c] := by
  obtain he | hf := munch_cases c rest
  · exact congrArg Prod.snd he
  · exact absurd h hf.ne_error

theorem munch_error_iff (c : Char) (rest : List Char) :
    (munch c rest).1 = .error ↔
      ∀ (k : Kind) (text : String), k.Fits text → ¬ text.toList <+: c :: rest := by
  constructor
  · intro h k text hk hp
    exact (hk.le_munch hp).1 h
  · intro h
    obtain he | hf := munch_cases c rest
    · exact congrArg Prod.fst he
    · exact absurd (by simpa using munch_prefix c rest) (h _ _ hf)

end Crux
