import Crux.Proofs.Token.Pattern
import Mathlib.Data.List.DropRight
import Mathlib.Logic.Function.Iterate

namespace Crux

namespace Position

/-- The place behind a text, counted: the line from all its newlines, the column from the
characters since the last one. -/
def behind (text : List Char) : Position :=
  ⟨1 + text.count '\n', 1 + (text.rtakeWhile (· ≠ '\n')).length⟩

theorem step_behind (text : List Char) (c : Char) :
    (behind text).step c = behind (text ++ [c]) := by
  by_cases h : c = '\n'
  · simp [step, behind, h, Nat.add_assoc]
  · simp [step, behind, h, Nat.add_assoc]

/-- Stepping over a text and counting its characters lead to the same place. -/
theorem after_behind (before text : List Char) :
    (behind before).after text = behind (before ++ text) := by
  induction text generalizing before with
  | nil => simp
  | cons c text ih => rw [after_cons, step_behind, ih, List.append_assoc, List.singleton_append]

end Position

/-- What stands between tokens, where `after` is the text behind it: blanks, and comments that run
up to a newline or to the end of the text. -/
inductive Gap (after : List Char) : List Char → Prop
  | nil : Gap after []
  | blank {c : Char} {gap : List Char} : isBlank c → Gap after gap → Gap after (c :: gap)
  | comment {text gap : List Char} : (∀ c ∈ text, c ≠ '\n') →
      (∀ c ∈ (gap ++ after).head?, c = '\n') → Gap after gap →
      Gap after ('/' :: '/' :: (text ++ gap))

namespace Gap

def Inside (after gap : List Char) : Prop :=
  ∃ text rest, gap = text ++ rest ∧ (∀ c ∈ text, c ≠ '\n') ∧
    (∀ c ∈ (rest ++ after).head?, c = '\n') ∧ Gap after rest

theorem Inside.cons {after gap : List Char} {c : Char} (hc : c ≠ '\n') (h : Inside after gap) :
    Inside after (c :: gap) := by
  obtain ⟨text, rest, rfl, ht, hr, hg⟩ := h
  exact ⟨c :: text, rest, rfl, List.forall_mem_cons.mpr ⟨hc, ht⟩, hr, hg⟩

theorem Inside.slash {after gap : List Char} (h : Inside after gap)
    (hs : (gap ++ after).head? = some '/') : Gap after ('/' :: gap) := by
  obtain ⟨text, rest, rfl, ht, hr, hg⟩ := h
  cases text with
  | nil => exact absurd (hr '/' hs) (by decide)
  | cons c text =>
    obtain rfl : c = '/' := by simpa using hs
    exact .comment (List.forall_mem_cons.mp ht).2 hr hg

end Gap

def Begins (text : List Char) : Prop :=
  (∀ c ∈ text.head?, isBlank c = false) ∧ ¬ ['/', '/'] <+: text

structure Front (inside : Bool) (text gap after : List Char) : Prop where
  text_eq : text = gap ++ after
  length_eq : gapLength inside text = gap.length
  begins : Begins after

namespace Front

variable {inside inside' : Bool} {c : Char} {text gap after : List Char}

theorem nil (inside : Bool) : Front inside [] [] [] := ⟨rfl, rfl, by simp [Begins]⟩

theorem cons (h : Front inside text gap after)
    (hl : gapLength inside' (c :: text) = 1 + gapLength inside text) :
    Front inside' (c :: text) (c :: gap) after :=
  ⟨congrArg (c :: ·) h.text_eq, by rw [hl, h.length_eq, List.length_cons, Nat.add_comm], h.begins⟩

end Front

theorem exists_gap (text : List Char) :
    (∃ gap after, Front false text gap after ∧ Gap after gap) ∧
      ∃ gap after, Front true text gap after ∧ Gap.Inside after gap := by
  induction text with
  | nil => exact ⟨⟨[], [], .nil _, .nil⟩, [], [], .nil _, [], [], rfl, by simp, by simp, .nil⟩
  | cons c text ih =>
    obtain ⟨⟨gap, after, hf, hg⟩, gap', after', hf', hg'⟩ := ih
    constructor
    · by_cases hb : isBlank c
      · exact ⟨c :: gap, after, hf.cons (by simp [gapLength, hb]), .blank hb hg⟩
      · by_cases hs : c = '/' ∧ text.head? = some '/'
        · obtain ⟨rfl, hs⟩ := hs
          refine ⟨'/' :: gap', after', hf'.cons (by simp [gapLength, hb, hs]), hg'.slash ?_⟩
          rw [← hf'.text_eq, hs]
        · refine ⟨[], c :: text, ⟨rfl, by simp [gapLength, hb, hs], by simpa using hb, ?_⟩, .nil⟩
          intro hp
          refine hs ?_
          cases text with
          | nil => simp at hp
          | cons d text => simpa [List.cons_prefix_cons, eq_comm] using hp
    · by_cases hc : c = '\n'
      · subst hc
        exact ⟨'\n' :: gap, after, hf.cons rfl, [], '\n' :: gap, rfl, by simp, by simp,
          .blank rfl hg⟩
      · exact ⟨c :: gap', after', hf'.cons (by simp [gapLength, hc]), hg'.cons hc⟩

namespace Cursor

theorem next_cases (c : Cursor) :
    ∃ gap after, c.rest = gap ++ after ∧ Gap after gap ∧ Begins after ∧
      ((after = [] ∧ c.next = (.eof (c.pos.after gap), ⟨[], c.pos.after gap⟩)) ∨
        ∃ ch rest t tail, after = ch :: rest ∧ munch ch rest = (t.kind, t.lexeme.toList) ∧
          after = t.lexeme.toList ++ tail ∧ t.pos = c.pos.after gap ∧
          c.next = (t, ⟨tail, t.pos.after t.lexeme.toList⟩)) := by
  obtain ⟨gap, after, hf, hg⟩ := (exists_gap c.rest).1
  have ht : c.toToken = ⟨after, c.pos.after gap⟩ := by
    rw [toToken, skip, hf.length_eq, hf.text_eq, List.drop_left, List.take_left]
  refine ⟨gap, after, hf.text_eq, hg, hf.begins, ?_⟩
  cases after with
  | nil => exact .inl ⟨rfl, by rw [next, ht]⟩
  | cons ch rest =>
    obtain ⟨tail, htail⟩ := munch_prefix ch rest
    refine .inr ⟨ch, rest, ⟨(munch ch rest).1, String.ofList (munch ch rest).2, c.pos.after gap⟩,
      tail, rfl, by rw [String.toList_ofList], by rw [String.toList_ofList, htail], rfl, ?_⟩
    rw [next, ht]
    dsimp only
    rw [skip, String.toList_ofList, ← htail, List.drop_left, List.take_left]

end Cursor

structure Segment where
  gap : List Char
  token : Token

namespace Segment

def text (p : Segment) : List Char := p.gap ++ p.token.lexeme.toList

/-- The segments lie one behind the other between `before` and the gap at the end of a text. -/
def Lie (before : List Char) (segments : List Segment) (last : List Char) : Prop :=
  ∀ front p back, segments = front ++ p :: back →
    p.token.kind ≠ .eof ∧
      Gap (p.token.lexeme.toList ++ (back.flatMap text ++ last)) p.gap ∧
      p.token.pos = .behind (before ++ (front.flatMap text ++ p.gap))

theorem Lie.nil (before last : List Char) : Lie before [] last := by
  intro front p back h
  simp at h

theorem Lie.cons {before last : List Char} {p : Segment} {segments : List Segment}
    (hk : p.token.kind ≠ .eof)
    (hg : Gap (p.token.lexeme.toList ++ (segments.flatMap text ++ last)) p.gap)
    (hp : p.token.pos = .behind (before ++ p.gap)) (h : Lie (before ++ p.text) segments last) :
    Lie before (p :: segments) last := by
  intro front q back e
  cases front with
  | nil =>
    obtain ⟨rfl, rfl⟩ := List.cons.inj e
    exact ⟨hk, hg, hp⟩
  | cons r front =>
    obtain ⟨rfl, rfl⟩ := List.cons.inj e
    obtain ⟨hk, hg, hp⟩ := h front q back rfl
    refine ⟨hk, hg, ?_⟩
    rw [hp, List.flatMap_cons, List.append_assoc, List.append_assoc]

end Segment

namespace Cursor

theorem scan_segments (c : Cursor) (before : List Char) (hpos : c.pos = .behind before) :
    ∃ (segments : List Segment) (last : List Char),
      c.rest = segments.flatMap Segment.text ++ last ∧ Gap [] last ∧
        Segment.Lie before segments last ∧
        c.scan = (segments.map Segment.token ++ [.eof (.behind (before ++ c.rest))],
          ⟨[], .behind (before ++ c.rest)⟩) := by
  fun_induction scan c generalizing before with
  | case1 c h =>
    obtain ⟨gap, after, hrest, hg, -, ⟨rfl, hn⟩ | ⟨ch, rest, t, tail, -, hm, -, -, hn⟩⟩ :=
      c.next_cases
    · rw [List.append_nil] at hrest
      refine ⟨[], gap, hrest, hg, .nil _ _, ?_⟩
      rw [hn, hpos, Position.after_behind, hrest]
      rfl
    · rw [hn] at h
      exact absurd (hm ▸ h) (munch_ne_eof ch rest)
  | case2 c h tokens last hscan ih =>
    obtain ⟨gap, after, hrest, hg, -, ⟨-, hn⟩ | ⟨ch, rest, t, tail, -, -, rfl, ht, hn⟩⟩ :=
      c.next_cases
    · rw [hn] at h
      exact absurd rfl h
    · rw [hpos, Position.after_behind] at ht
      rw [hscan, hn] at ih
      rw [hn] at h
      obtain ⟨segments, last', htail, hl, hlie, he⟩ :=
        ih (before ++ gap ++ t.lexeme.toList) (by rw [ht, Position.after_behind])
      dsimp only at htail
      refine ⟨⟨gap, t⟩ :: segments, last', ?_, hl, .cons h (htail ▸ hg) ht ?_, ?_⟩
      · rw [hrest, htail, List.flatMap_cons, Segment.text, List.append_assoc, List.append_assoc]
      · rwa [List.append_assoc] at hlie
      · obtain ⟨rfl, rfl⟩ := Prod.mk.inj he
        rw [hn, hrest]
        simp only [List.append_assoc, List.map_cons, List.cons_append]

/-- Tokens and gaps make up the text. Each token stands where the characters before it put it, and
the end of the text is read again and again. -/
theorem tokens_segments (source : String) :
    ∃ (segments : List Segment) (last : List Char),
      source.toList = segments.flatMap Segment.text ++ last ∧ Gap [] last ∧
      (ofString source).tokens = segments.map Segment.token ++ [.eof (.behind source.toList)] ∧
      (∀ front p back, segments = front ++ p :: back →
        p.token.kind ≠ .eof ∧
          Gap (p.token.lexeme.toList ++ (back.flatMap Segment.text ++ last)) p.gap ∧
          p.token.pos = .behind (front.flatMap Segment.text ++ p.gap)) ∧
      ∀ n, ((fun c => c.next.2)^[n] (ofString source).scan.2).next.1 =
        .eof (.behind source.toList) := by
  obtain ⟨segments, last, hrest, hl, hlie, hs⟩ := (ofString source).scan_segments [] rfl
  refine ⟨segments, last, hrest, hl, congrArg Prod.fst hs, hlie, fun n => ?_⟩
  rw [hs]
  dsimp only
  rw [Function.iterate_fixed (by rfl)]
  rfl

/-- Wherever scanning stands, the next token behind the gap is the longest match of all patterns,
and there is no other. It is an error, of one character, just where no pattern fits. -/
theorem next_longest (c : Cursor) :
    ∃ gap rest, c.rest = gap ++ rest ∧ Gap rest gap ∧ Begins rest ∧
      (rest = [] → c.next.1.kind = .eof) ∧
      (rest ≠ [] →
        rest = c.next.1.lexeme.toList ++ c.next.2.rest ∧
        (c.next.1.kind ≠ .error →
          (∀ k text, Longest rest k text ↔ k = c.next.1.kind ∧ text = c.next.1.lexeme) ∧
          (c.next.1.kind ∈ Kind.keywords ↔ ∃ k ∈ Kind.keywords, c.next.1.lexeme = k.spelling)) ∧
        (c.next.1.kind = .error → c.next.1.lexeme.toList = rest.take 1) ∧
        (c.next.1.kind = .error ↔
          ∀ (k : Kind) (text : String), k.Fits text → ¬ text.toList <+: rest)) := by
  obtain ⟨gap, rest, hrest, hg, hb, ⟨rfl, hn⟩ | ⟨ch, others, t, tail, rfl, hm, ht, -, hn⟩⟩ :=
    c.next_cases
  · refine ⟨gap, [], hrest, hg, hb, fun _ => ?_, fun h => absurd rfl h⟩
    rw [hn]
    rfl
  · refine ⟨gap, ch :: others, hrest, hg, hb, by simp, fun _ => ?_⟩
    have hlong := munch_longest ch others
    have herror := munch_error_iff ch others
    have hone := munch_error ch others
    rw [hm] at hlong herror hone
    rw [String.ofList_toList] at hlong
    rw [hn]
    refine ⟨ht, fun h => ⟨fun k text => ⟨(hlong h).unique, ?_⟩, (hlong h).fits.isKeyword_iff⟩, hone,
      herror⟩
    rintro ⟨rfl, rfl⟩
    exact hlong h

end Cursor

end Crux
