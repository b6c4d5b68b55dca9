import Crux.Proofs.Grammar.Accepts
import Crux.Proofs.Phrase.Numbering

namespace Crux

theorem Node.id_lt_of_below {n : Node} (h : n.ids.Pairwise (· < ·)) :
    ∀ m ∈ n.preorder, ∀ c ∈ m.children, ∀ k ∈ c.preorder, k.id < m.id := by
  induction n using children_induction with
  | step n ih =>
    rw [ids_eq, List.pairwise_append] at h
    obtain ⟨hbelow, -, hlast⟩ := h
    refine forall_preorder (fun c hc k hk => ?_) fun c hc => ih c hc ?_
    · refine hlast k.id (List.mem_flatMap.mpr ⟨c, hc, ?_⟩) n.id (List.mem_singleton.mpr rfl)
      exact List.mem_map_of_mem (mem_postorder.mpr hk)
    · exact (List.pairwise_flatMap.mp hbelow).1 c hc

namespace Parser

def afterReadings (source : String) : Nat → Parser
  | 0 => ofString source
  | k + 1 => (afterReadings source k).parse.2

/-- How a reading from `p` on can end: the root of its tree and the parser behind it. Either way
the reports made before are kept. -/
inductive Outcome (p : Parser) : Node → Parser → Prop
  | finished {tag : Tag} {items : List Node} {q : Parser} (names : List Diagnostic) :
      q.diagnostics = p.diagnostics ++ names → (∀ x ∈ names, x.isSyntax = false) →
      q.current.kind = .eof → q.scopes.depth = p.scopes.depth →
      Outcome p (.list tag .declarations items) q
  | brokenOff {tag : Tag} {q : Parser} (names : List Diagnostic) (e : Expected)
      (passed : List Token) :
      q.diagnostics = p.diagnostics ++ (names ++ [.unexpected tag.pos e q.current.kind]) →
      (∀ x ∈ names, x.isSyntax = false) → tag.pos = q.current.pos →
      p.tokens = passed ++ q.current :: q.later → p.scopes.depth ≤ q.scopes.depth →
      Outcome p (.error tag "Could not complete parsing.") q

theorem parse_of_done {p q : Parser} {root : Node} (h : Parse.program p = .done root q) :
    p.parse = (root, q) := by
  rw [parse, h]

theorem parse_of_stuck {p q : Parser} {pos : Position} (h : Parse.program p = .stuck pos q) :
    p.parse = (.error ⟨q.nextId, pos⟩ "Could not complete parsing.",
      { q with nextId := q.nextId + 1 }) := by
  rw [parse, h]

theorem tokens_parse_suffix (p : Parser) : p.parse.2.tokens <:+ p.tokens := by
  cases h : Parse.program p with
  | done root q =>
    rw [parse_of_done h]
    exact (Parse.Invariant.program_keeps.done (Parse.since_holds p) h).2.1
  | stuck pos q =>
    rw [parse_of_stuck h]
    exact (Parse.Invariant.program_keeps.stuck (Parse.since_holds p) h).1

theorem afterReadings_ended (source : String) (k : Nat) : (afterReadings source k).Ended := by
  induction k with
  | zero => exact ofString_ended source
  | succ k ih =>
    obtain ⟨passed, e⟩ := (afterReadings source k).tokens_parse_suffix
    exact ih.of_append e.symm

theorem exists_phrase_of_done {p q : Parser} {root : Node} (hp : p.Ended)
    (h : Parse.program p = .done root q) :
    ∃ ph : ProgramPhrase, root = (ph.build p.toDraft).1 ∧
      q = (ph.build p.toDraft).2.reading [ph.stop.val] := by
  obtain ⟨ph, e⟩ := (Parse.program_derives hp h).exists_phrase
  have hdone := Parse.program_complete ph p.toDraft
  rw [← e, show p.toDraft.reading p.tokens = p from rfl, h] at hdone
  exact ⟨ph, Parsed.done.inj hdone⟩

/-- Wherever earlier readings have left the parser, one more reading comes to the end of the text
and closes the scopes that it opens, or it breaks off at a token that it does not pass and reports
that token, once and last. -/
theorem parse_outcome (source : String) (k : Nat) :
    Outcome (afterReadings source k) (afterReadings source k).parse.1
      (afterReadings source k).parse.2 := by
  have hended := afterReadings_ended source k
  generalize afterReadings source k = p at hended
  have hholds := Parse.since_holds p
  cases h : Parse.program p with
  | done root q =>
    obtain ⟨-, -, ⟨names, hnames, hquiet⟩, hdepth⟩ := Parse.Invariant.program_keeps.done hholds h
    obtain ⟨tag, items, rfl⟩ := program_root h
    obtain ⟨ph, -, hq⟩ := exists_phrase_of_done hended h
    rw [parse_of_done h]
    refine .finished names hnames hquiet ?_ hdepth
    rw [hq]
    exact ph.stop.kind_eq
  | stuck pos q =>
    obtain ⟨⟨passed, hpassed⟩, hdepth, d, e, ⟨names, hnames, hquiet⟩, rfl, hq⟩ :=
      Parse.Invariant.program_keeps.stuck hholds h
    rw [parse_of_stuck h]
    refine .brokenOff names e passed ?_ hquiet rfl hpassed.symm hdepth
    rw [hq, hnames, List.append_assoc]

/-- The nodes of a tree read from the beginning, listed in postorder, have the numbers from 0 on, up
to the number that the parser would give next. So all are different, no node that was made is
missing, and a node has a greater number than all below it. -/
theorem parse_numbers (source : String)
    (h : ∃ tag items, (ofString source).parse.1 = .list tag .declarations items) :
    (ofString source).parse.1.postorder.map Node.id =
        List.range (ofString source).parse.1.postorder.length ∧
      ((ofString source).parse.1.postorder.map Node.id).Nodup ∧
      (ofString source).parse.1.postorder.length = (ofString source).parse.2.nextId ∧
      ∀ m ∈ (ofString source).parse.1.preorder, ∀ c ∈ m.children, ∀ k ∈ c.preorder,
        k.id < m.id := by
  obtain ⟨tag, items, hroot⟩ := h
  cases hrun : Parse.program (ofString source) with
  | stuck pos q =>
    rw [parse_of_stuck hrun] at hroot
    cases hroot
  | done root q =>
    obtain ⟨ph, hph, hq⟩ := exists_phrase_of_done (ofString_ended source) hrun
    obtain ⟨n, hnext, hids⟩ := ph.build_span (ofString source).toDraft
    have hids : root.postorder.map Node.id = List.range n := by
      rw [hph, List.range_eq_range']
      exact hids
    have hlength : root.postorder.length = n := by
      rw [← List.length_map Node.id, hids, List.length_range]
    have hmade : q.nextId = n := by
      rw [hq]
      exact hnext.trans (Nat.zero_add n)
    have hrising : root.ids.Pairwise (· < ·) := by
      rw [Node.ids, hids]
      exact List.pairwise_lt_range
    rw [parse_of_done hrun, hlength, hids, hmade]
    exact ⟨rfl, List.nodup_range, rfl, root.id_lt_of_below hrising⟩

def branchingText : String :=
  "array a : int[2][3]; func main() : void \x7bif not (a[0][1] < 1 + 2 - 3) \x7b::main();\x7d\x7d"

theorem parse_numbers_branching :
    (∃ tag items, (ofString branchingText).parse.1 = .list tag .declarations items) ∧
      (ofString branchingText).parse.1.postorder.map Node.id = List.range 22 := by
  have hrun : (ofString branchingText).parse.1.isError = false ∧
      (ofString branchingText).parse.2.nextId = 22 := by
    decide +kernel
  have hroot : ∃ tag items, (ofString branchingText).parse.1 = .list tag .declarations items := by
    cases h : Parse.program (ofString branchingText) with
    | done root q =>
      rw [parse_of_done h]
      exact program_root h
    | stuck pos q =>
      rw [parse_of_stuck h] at hrun
      cases hrun.1
  obtain ⟨hids, -, hcount, -⟩ := parse_numbers branchingText hroot
  rw [hids, hcount, hrun.2]
  exact ⟨hroot, rfl⟩

end Parser

end Crux
