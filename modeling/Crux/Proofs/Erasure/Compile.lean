import Crux.Proofs.Erasure.Code
import Crux.Proofs.Erasure.Grammar
import Crux.Proofs.Emit.Closure

namespace Crux

open Instr Asm Emit

def Asm.isComment (line : String) : Bool :=
  let text := line.toList.dropWhile (· = ' ')
  "#begin ".toList.isPrefixOf text || "#end ".toList.isPrefixOf text

theorem isComment_of_head {line : String} {c : Char} (h : line.toList.head? = some c)
    (hb : c ≠ ' ') (hm : c ≠ '#') : isComment line = false := by
  obtain ⟨rest, hline⟩ := List.head?_eq_some_iff.mp h
  simp [isComment, hline, hb, List.isPrefixOf, Ne.symm hm]

theorem Instr.head_mnemonic (i : Instr) :
    ∃ c, i.mnemonic.toList.head? = some c ∧ c ≠ ' ' ∧ c ≠ '#' := by
  unfold mnemonic
  split <;> exact ⟨_, rfl, by decide, by decide⟩

theorem Instr.head_render (i : Instr) (spacing : Spacing) :
    (i.render spacing).toList.head? = i.mnemonic.toList.head? := by
  obtain ⟨c, hc, -⟩ := i.head_mnemonic
  unfold render
  split
  · rfl
  · simp [hc]

theorem Label.initial_letter (l : Label) : l.initial ∈ ['m', 'f', 'l', 'c', 'd'] := by
  cases l with
  | function name | epilogue name =>
    rw [initial]
    split <;> decide
  | _ => simp [initial]

theorem Line.isComment_render {H : Label → Prop} {line : Line} (h : line.IsCode H) :
    isComment line.render = line.isMark := by
  cases line with
  | instr i spacing =>
    obtain ⟨c, hc, hb, hm⟩ := i.head_mnemonic
    exact isComment_of_head ((i.head_render spacing).trans hc) hb hm
  | label l =>
    have hhead : (Line.label l).render.toList.head? = some l.initial := by
      simp [render, Label.head_render]
    have hletter := l.initial_letter
    refine isComment_of_head hhead ?_ ?_ <;>
    · intro e
      rw [e] at hletter
      revert hletter
      decide
  | mark edge node =>
    cases edge with
    | opening => simp [render, isComment, isMark, blanks, List.replicate, List.isPrefixOf]
    | closing => simp [render, isComment, isMark, blanks, List.replicate, List.isPrefixOf]
  | text => cases h

inductive Stage
  | reading | checking | emitting
  deriving DecidableEq

def CompileError.stage : CompileError → Stage
  | .reading _ => .reading
  | .checking _ => .checking
  | .emitting _ => .emitting

def stopped? : Except CompileError Program → Option Stage
  | .ok _ => none
  | .error e => some e.stage

theorem Parser.ofString_alike {source source' : String}
    (h : (Cursor.ofString source).tokens.map (fun t => (t.kind, t.lexeme)) =
      (Cursor.ofString source').tokens.map fun t => (t.kind, t.lexeme)) :
    (Parser.ofString source).erased = (Parser.ofString source').erased := by
  have herased (ts : List Token) : ts.map Token.erased =
      (ts.map fun t => (t.kind, t.lexeme)).map fun x => ⟨x.1, x.2, .start⟩ := by
    rw [List.map_map]
    rfl
  have hreading (ts : List Token) : (Draft.initial.reading ts).erased =
      ⟨Draft.initial.erased, (ts.map Token.erased).headD (.eof .start),
        (ts.map Token.erased).tail⟩ := by
    cases ts with
    | _ => rfl
  rw [ofString, ofString, ofTokens, ofTokens, hreading, hreading, herased, h, ← herased]

theorem Parser.hasError_alike {p q : Parser} (h : p.erased = q.erased) :
    p.hasError = q.hasError := by
  have herased (p : Parser) : p.hasError = !p.erased.diagnostics.isEmpty := by
    simp [hasError, erased, Draft.erased]
  rw [herased, h, ← herased]

theorem Finding.isEmpty_errors (fs : List Finding) :
    ((fs.map erased).filterMap error?).isEmpty = (fs.filterMap error?).isEmpty := by
  have herror (f : Finding) : error? f.erased = (error? f).map fun _ => .none := by
    cases f with
    | _ => rfl
  have hmap : (fs.map erased).filterMap error? = (fs.filterMap error?).map fun _ => .none := by
    rw [List.filterMap_map, List.map_filterMap]
    congr 1
    funext f
    exact herror f
  rw [hmap, List.isEmpty_map]

namespace Node

variable {root root' : Node}

theorem findings_alike (hb : root.erased = root'.erased) :
    (root.findings none).map Finding.erased = (root'.findings none).map Finding.erased := by
  rw [← findings_erased rfl root, hb, findings_erased rfl root']

theorem Accepted.hasError_alike (h : root.Accepted) (h' : root'.Accepted)
    (hb : root.erased = root'.erased) :
    (Checker.empty.check root).hasError = (Checker.empty.check root').hasError := by
  have herrors {root : Node} (h : root.Accepted) : (Checker.empty.check root).hasError =
      !(((root.findings none).map Finding.erased).filterMap Finding.error?).isEmpty := by
    rw [Finding.isEmpty_errors, Checker.hasError, h.check_eq, Checker.errors_add]
    rfl
  rw [herrors h, herrors h', findings_alike hb]

theorem Accepted.exists_type (h : root.Accepted) (h' : root'.Accepted)
    (hb : root.erased = root'.erased) {id : Nat} {t : Ty}
    (ht : (Checker.empty.check root).types[id]? = some t) :
    ∃ t', (Checker.empty.check root').types[id]? = some t' ∧ t'.erased = t.erased := by
  have hm : Finding.erased (.type id t) ∈ (root'.findings none).map Finding.erased := by
    rw [← findings_alike hb]
    exact List.mem_map_of_mem (h.types_iff.mp ht)
  obtain ⟨f, hf, herased⟩ := List.mem_map.mp hm
  cases f with
  | type id' t' =>
    obtain ⟨rfl, ht'⟩ := Finding.type.inj herased
    exact ⟨t', h'.types_iff.mpr hf, ht'⟩
  | list | error => cases herased

theorem Accepted.types_alike (h : root.Accepted) (h' : root'.Accepted)
    (hb : root.erased = root'.erased) :
    erasedTypes ((Checker.empty.check root).types[·]?) =
      erasedTypes ((Checker.empty.check root').types[·]?) := by
  funext id
  simp only [erasedTypes]
  cases ht : (Checker.empty.check root).types[id]? with
  | some t =>
    obtain ⟨t', ht', herased⟩ := h.exists_type h' hb ht
    rw [ht', Option.map_some, Option.map_some, herased]
  | none =>
    cases ht' : (Checker.empty.check root').types[id]? with
    | none => rfl
    | some t' =>
      obtain ⟨t, ht'', -⟩ := h'.exists_type h hb.symm ht'
      cases ht.symm.trans ht''

theorem Translated.unmarked_alike {types types' : Nat → Option Ty} {program program' : Program}
    (h : root.Translated types program) (h' : root'.Translated types' program')
    (hb : root.erased = root'.erased) (ht : erasedTypes types = erasedTypes types') :
    program.data = program'.data ∧ unmarked program.code = unmarked program'.code := by
  have hdata (root : Node) :
      root.children.flatMap unitData = root.erased.children.flatMap unitData := by
    rw [children_erased, List.flatMap_map]
    congr 1
    funext n
    exact n.unitData_erased.symm
  constructor
  · rw [h.data, h'.data, hdata, hb, ← hdata]
  · rw [h.code, h'.code, ← unmarked_programCode, hb, ht, unmarked_programCode]

theorem Translated.filter_codeLines {types : Nat → Option Ty} {program : Program}
    (h : root.Translated types program) :
    program.codeLines.filter (fun line => !isComment line) =
      (unmarked program.code).map Line.render := by
  rw [Program.codeLines, List.filter_map, unmarked]
  congr 1
  refine List.filter_congr fun line hl => ?_
  have hcode := h.isCode line (List.mem_append_right _ hl)
  exact congrArg (!·) (Line.isComment_render hcode)

end Node

theorem compile_of_reading {source : String}
    (h : (Parser.ofString source).parse.2.hasError = true) :
    ∃ report, compile source = .error (.reading report) := by
  rw [compile_eq]
  exact ⟨_, if_pos h⟩

theorem compile_of_checking {source : String}
    (h : (Parser.ofString source).parse.2.hasError = false)
    (hc : (Checker.empty.check (Parser.ofString source).parse.1).hasError = true) :
    ∃ report, compile source = .error (.checking report) := by
  rw [compile_eq]
  exact ⟨_, (if_neg (by simp [h])).trans (if_pos hc)⟩

theorem accepted_of_quiet {source : String}
    (h : (Parser.ofString source).parse.2.hasError = false) :
    (Parser.ofString source).parse.1.Accepted :=
  Parser.parse_accepted (by simpa [Parser.hasError] using h)

/-- Texts whose tokens have the same kinds and lexemes are compiled alike, whatever blanks, line
breaks and comments stand between the tokens: the compiler stops at the same stage, or it makes the
same data and, but for the comments that name the nodes, the same code. -/
theorem compile_layout {source source' : String}
    (h : (Cursor.ofString source).tokens.map (fun t => (t.kind, t.lexeme)) =
      (Cursor.ofString source').tokens.map fun t => (t.kind, t.lexeme)) :
    stopped? (compile source) = stopped? (compile source') ∧
      ∀ program program', compile source = .ok program → compile source' = .ok program' →
        program.dataLines = program'.dataLines ∧
        program.codeLines.filter (fun line => !isComment line) =
          program'.codeLines.filter fun line => !isComment line := by
  obtain ⟨hroot, hparser⟩ := Parser.parse_alike (Parser.ofString_alike h)
  have hread := Parser.hasError_alike hparser
  cases hp : (Parser.ofString source).parse.2.hasError with
  | true =>
    obtain ⟨report, e⟩ := compile_of_reading hp
    obtain ⟨report', e'⟩ := compile_of_reading (hread ▸ hp)
    rw [e, e']
    exact ⟨rfl, fun _ _ hc => by cases hc⟩
  | false =>
    have hp' := hread ▸ hp
    have ha := accepted_of_quiet hp
    have ha' := accepted_of_quiet hp'
    have hcheck := ha.hasError_alike ha' hroot
    cases hc : (Checker.empty.check (Parser.ofString source).parse.1).hasError with
    | true =>
      obtain ⟨report, e⟩ := compile_of_checking hp hc
      obtain ⟨report', e'⟩ := compile_of_checking hp' (hcheck ▸ hc)
      rw [e, e']
      exact ⟨rfl, fun _ _ hc => by cases hc⟩
    | false =>
      obtain ⟨hr, ht⟩ := Faultless.checked ⟨hp, hc⟩
      obtain ⟨hr', ht'⟩ := Faultless.checked ⟨hp', hcheck ▸ hc⟩
      obtain ⟨program, e, ht⟩ := compile_translated hr ht
      obtain ⟨program', e', ht'⟩ := compile_translated hr' ht'
      obtain ⟨hdata, hcode⟩ := ht.unmarked_alike ht' hroot (ha.types_alike ha' hroot)
      rw [e, e']
      refine ⟨rfl, fun _ _ h h' => ?_⟩
      cases h
      cases h'
      rw [ht.filter_codeLines, ht'.filter_codeLines, hcode, Program.dataLines, hdata]
      exact ⟨rfl, rfl⟩

def crowdedText : String :=
  "var n:int;func f(k:int):int\x7breturn k;\x7dfunc main():void\x7blet n=::f(1);if n<2\x7b\x7d\x7d"

def airyText : String :=
  "// n is global\nvar n : int ;\n\nfunc f ( k : int ) : int\n\x7b return k; // as it is\n\x7d\n" ++
    "func main() : void\n\x7b\n\tlet n = :: f(1);\n\tif n < 2 \x7b // nothing\n\t\x7d\n\x7d\n"

theorem compile_layout_airy :
    (Cursor.ofString crowdedText).tokens.map (fun t => (t.kind, t.lexeme)) =
      (Cursor.ofString airyText).tokens.map (fun t => (t.kind, t.lexeme)) ∧
    ∃ program program', compile crowdedText = .ok program ∧ compile airyText = .ok program' ∧
      program.dataLines = program'.dataLines ∧
      program.codeLines.filter (fun line => !isComment line) =
        program'.codeLines.filter fun line => !isComment line := by
  have htokens : (Cursor.ofString crowdedText).tokens.map (fun t => (t.kind, t.lexeme)) =
      (Cursor.ofString airyText).tokens.map fun t => (t.kind, t.lexeme) := by
    decide +kernel
  have hquiet : Faultless crowdedText ∧ Faultless airyText := by decide +kernel
  obtain ⟨hread, hcheck⟩ := hquiet.1.checked
  obtain ⟨hread', hcheck'⟩ := hquiet.2.checked
  obtain ⟨program, e, -⟩ := compile_translated hread hcheck
  obtain ⟨program', e', -⟩ := compile_translated hread' hcheck'
  exact ⟨htokens, program, program', e, e', (compile_layout htokens).2 program program' e e'⟩

end Crux
