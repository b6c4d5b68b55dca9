import Crux.Binary32

namespace Crux

namespace Text

theorem append_cons_inj {x : Char} {a b s t : List Char} (ha : x ∉ a) (hb : x ∉ b)
    (h : a ++ x :: s = b ++ x :: t) : a = b ∧ s = t := by
  induction a generalizing b with
  | nil =>
    cases b with
    | nil => exact ⟨rfl, List.tail_eq_of_cons_eq h⟩
    | cons c b =>
      cases List.head_eq_of_cons_eq h
      exact absurd List.mem_cons_self hb
  | cons c a ih =>
    cases b with
    | nil =>
      cases List.head_eq_of_cons_eq h
      exact absurd List.mem_cons_self ha
    | cons d b =>
      cases List.head_eq_of_cons_eq h
      obtain ⟨rfl, e⟩ := ih (List.not_mem_of_not_mem_cons ha) (List.not_mem_of_not_mem_cons hb)
        (List.tail_eq_of_cons_eq h)
      exact ⟨rfl, e⟩

theorem toDigits_inj {m n : Nat} (h : Nat.toDigits 10 m = Nat.toDigits 10 n) : m = n := by
  have hd := congrArg (fun digits => Nat.ofDigitChars 10 digits 0) h
  simpa using hd

theorem append_toString_inj {s : String} {m n : Nat} (h : s ++ toString m = s ++ toString n) :
    m = n := by
  have hl := congrArg String.toList h
  rw [String.toList_append, String.toList_append] at hl
  refine toDigits_inj ?_
  rw [← Nat.toList_repr, ← Nat.toList_repr]
  exact List.append_cancel_left hl

theorem not_mem_toDigits {c : Char} (h : c.isDigit = false) (n : Nat) :
    c ∉ Nat.toDigits 10 n := by
  intro hc
  rw [Nat.isDigit_of_mem_toDigits (by decide) (by decide) hc] at h
  cases h

theorem digits_append_inj {c : Char} (hc : c.isDigit = false) {m n : Nat} {s t : List Char}
    (h : Nat.toDigits 10 m ++ c :: s = Nat.toDigits 10 n ++ c :: t) : m = n ∧ s = t := by
  obtain ⟨hdigits, hrest⟩ := append_cons_inj (not_mem_toDigits hc m) (not_mem_toDigits hc n) h
  exact ⟨toDigits_inj hdigits, hrest⟩

theorem not_mem_intercalate {c : Char} {s : List Char} {parts : List (List Char)} (hs : c ∉ s)
    (h : ∀ t ∈ parts, c ∉ t) : c ∉ s.intercalate parts := by
  induction parts with
  | nil => exact List.not_mem_nil
  | cons t parts ih =>
    obtain ⟨ht, hparts⟩ := List.forall_mem_cons.mp h
    cases parts with
    | nil => simpa [List.intercalate] using ht
    | cons u parts =>
      rw [List.intercalate_cons_cons, List.mem_append, List.mem_append, not_or, not_or]
      exact ⟨⟨ht, hs⟩, ih hparts⟩

theorem splitOn_join {lines : List String} (h : ∀ line ∈ lines, '\n' ∉ line.toList) :
    (String.join (lines.map (· ++ "\n"))).toList.splitOn '\n' =
      lines.map String.toList ++ [[]] := by
  rw [String.toList_join, List.splitOn]
  induction lines with
  | nil => rfl
  | cons line lines ih =>
    obtain ⟨hline, hlines⟩ := List.forall_mem_cons.mp h
    have hne : ∀ c ∈ line.toList, (c == '\n') = false := fun c hc =>
      beq_false_of_ne fun e => hline (e ▸ hc)
    rw [List.map_cons, List.flatMap_cons, String.toList_append, List.append_assoc]
    exact (List.splitOnP_append_cons_of_forall_mem hne '\n' (by decide) _).trans
      (congrArg _ (ih hlines))

end Text

def OneLine (text : String) : Prop := '\n' ∉ text.toList

instance (text : String) : Decidable (OneLine text) := inferInstanceAs (Decidable (¬ _))

@[simp]
theorem oneLine_append {s t : String} : OneLine (s ++ t) ↔ OneLine s ∧ OneLine t := by
  simp [OneLine]

theorem OneLine.between {s t text : String} (hs : OneLine s) (ht : OneLine t) (h : OneLine text) :
    OneLine (s ++ text ++ t) :=
  oneLine_append.mpr ⟨oneLine_append.mpr ⟨hs, h⟩, ht⟩

theorem oneLine_repr (n : Nat) : OneLine n.repr := by
  simp [OneLine, Text.not_mem_toDigits]

theorem OneLine.intercalate {s : String} {parts : List String} (hs : OneLine s)
    (h : ∀ t ∈ parts, OneLine t) : OneLine (s.intercalate parts) := by
  rw [OneLine, String.toList_intercalate]
  exact Text.not_mem_intercalate hs (List.forall_mem_map.mpr h)

def Tidy (text : List Char) : Prop := '\n' ∉ text ∧ ':' ∉ text

instance (text : List Char) : Decidable (Tidy text) := inferInstanceAs (Decidable (_ ∧ _))

@[simp]
theorem tidy_nil : Tidy [] := ⟨List.not_mem_nil, List.not_mem_nil⟩

@[simp]
theorem tidy_append {s t : List Char} : Tidy (s ++ t) ↔ Tidy s ∧ Tidy t := by
  simp only [Tidy, List.mem_append, not_or]
  exact and_and_and_comm

@[simp]
theorem tidy_cons {c : Char} {s : List Char} : Tidy (c :: s) ↔ (c ≠ '\n' ∧ c ≠ ':') ∧ Tidy s := by
  simp only [Tidy, List.mem_cons, not_or, ne_comm (a := c)]
  exact and_and_and_comm

@[simp]
theorem tidy_replicate {c : Char} {n : Nat} (h : c ≠ '\n' ∧ c ≠ ':') :
    Tidy (List.replicate n c) := by
  constructor
  · exact fun hm => h.1 (List.eq_of_mem_replicate hm).symm
  · exact fun hm => h.2 (List.eq_of_mem_replicate hm).symm

theorem Tidy.of_subset {s t : List Char} (h : Tidy t) (hs : s ⊆ t) : Tidy s :=
  ⟨fun hm => h.1 (hs hm), fun hm => h.2 (hs hm)⟩

theorem Tidy.intercalate {s : List Char} {parts : List (List Char)} (hs : Tidy s)
    (h : ∀ t ∈ parts, Tidy t) : Tidy (s.intercalate parts) :=
  ⟨Text.not_mem_intercalate hs.1 fun t ht => (h t ht).1,
    Text.not_mem_intercalate hs.2 fun t ht => (h t ht).2⟩

@[simp]
theorem tidy_digits (n : Nat) : Tidy (Nat.toDigits 10 n) :=
  ⟨Text.not_mem_toDigits (by decide) n, Text.not_mem_toDigits (by decide) n⟩

@[simp]
theorem tidy_repr (i : Int) : Tidy i.repr.toList := by
  cases i with
  | ofNat n =>
    show Tidy n.repr.toList
    simp
  | negSucc n =>
    show Tidy ("-" ++ (n + 1).repr).toList
    simp

theorem Tidy.oneLine {text : String} (h : Tidy text.toList) : OneLine text := h.1

namespace Binary32

theorem tidy_positional (digits : Nat) (exponent : Int) : Tidy (positional digits exponent) := by
  have hd := tidy_digits digits
  have htake (k : Nat) := hd.of_subset (List.take_subset k _)
  have hdrop (k : Nat) := hd.of_subset (List.drop_subset k _)
  simp only [positional]
  split
  · simp [hd]
  · split
    · simp [hd]
    · simp [htake, hdrop]

@[simp]
theorem tidy_render (value : Binary32) : Tidy value.render.toList := by
  cases value with
  | nan => decide
  | infinite negative => cases negative <;> decide
  | finite negative m q =>
    have hm : Tidy (if m = 0 then ['0'] else positional (shortest m q).1 (shortest m q).2) := by
      split
      · decide
      · exact tidy_positional ..
    rw [render, String.toList_ofList]
    cases negative with
    | false => exact hm
    | true => exact tidy_cons.mpr ⟨by decide, hm⟩

end Binary32

end Crux
