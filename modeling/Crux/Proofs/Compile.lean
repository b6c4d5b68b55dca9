import Crux.Command.Run
import Crux.Proofs.Scope.Accepted
import Crux.Proofs.Typing.Sound

namespace Crux

theorem Env.builtins_sound : Env.builtins.Sound := by
  have h (b : Builtin) : b.ty.Sound := by
    cases b <;> exact ⟨by decide, rfl⟩
  intro scope hscope s hs
  rw [List.mem_singleton.mp hscope] at hs
  obtain ⟨i, hi, rfl⟩ := List.mem_mapIdx.mp hs
  exact h _

theorem Node.Accepted.ready {root : Node} (h : root.Accepted)
    (he : (Checker.empty.check root).errors = []) :
    ∀ n ∈ root.preorder, n.Ready ((Checker.empty.check root).types[·]?) :=
  (h.fits.checked Env.builtins_sound fun _ hf =>
    Node.findings_hold h.nodup_ids he hf).2

theorem Generator.generate_gives {types : Nat → Option Ty} {root : Node} {g : Generator}
    {code : List Line} {data : List Datum} {labels : Nat} {frame : Frame}
    (h : Emit.Gives (root.emit types) g.program.labels [] code data labels () frame) :
    g.generate types root =
      ⟨⟨⟨g.program.code ++ code, g.program.data ++ data, labels⟩, frame⟩, g.faults⟩ := by
  rw [generate, h.run_eq]

theorem Generator.generate_ready {types : Nat → Option Ty} {root : Node}
    (h : ∀ n ∈ root.preorder, n.Ready types) (g : Generator) :
    (g.generate types root).faults = g.faults := by
  obtain ⟨_, _, _, _, _, hg⟩ := Node.emit_succeeds h g.program.labels []
  rw [generate_gives hg]

theorem emitProgram_ready {c : Checker} {root : Node}
    (h : ∀ n ∈ root.preorder, n.Ready (c.types[·]?)) :
    emitProgram c root = .ok (Generator.empty.generate (c.types[·]?) root).program := by
  have hg : _ = [] := Generator.generate_ready h .empty
  simp [emitProgram, Generator.hasError, hg]

theorem ready_of_quiet {source : String} (hp : (Parser.ofString source).parse.2.hasError = false)
    (hc : (Checker.empty.check (Parser.ofString source).parse.1).hasError = false) :
    ∀ n ∈ (Parser.ofString source).parse.1.preorder,
      n.Ready ((Checker.empty.check (Parser.ofString source).parse.1).types[·]?) := by
  have ha : (Parser.ofString source).parse.1.Accepted :=
    Parser.parse_accepted (by simpa [Parser.hasError] using hp)
  exact ha.ready (by simpa [Checker.hasError] using hc)

theorem readProgram_eq (source : String) :
    readProgram source =
      if (Parser.ofString source).parse.2.hasError then
        .error (.reading (Parser.ofString source).parse.2.errorReport)
      else .ok (Parser.ofString source).parse.1 := rfl

theorem checkProgram_eq (root : Node) :
    checkProgram root =
      if (Checker.empty.check root).hasError then
        .error (.checking (Checker.empty.check root).errorReport)
      else .ok (Checker.empty.check root) := rfl

theorem compile_eq (source : String) :
    compile source =
      let p := (Parser.ofString source).parse.2
      let root := (Parser.ofString source).parse.1
      let c := Checker.empty.check root
      if p.hasError then .error (.reading p.errorReport)
      else if c.hasError then .error (.checking c.errorReport)
      else .ok (Generator.empty.generate (c.types[·]?) root).program := by
  rw [compile, readProgram_eq]
  dsimp only
  cases hp : (Parser.ofString source).parse.2.hasError with
  | true => rfl
  | false =>
    show (checkProgram _ >>= fun c => emitProgram c _) = _
    rw [checkProgram_eq]
    cases hc : (Checker.empty.check (Parser.ofString source).parse.1).hasError with
    | true => rfl
    | false => exact emitProgram_ready (ready_of_quiet hp hc)

/-- Only the reading and the checking of a text can fail. -/
theorem compile_cases (source : String) :
    (∃ report, compile source = .error (.reading report)) ∨
      (∃ report, compile source = .error (.checking report)) ∨
      ∃ program, compile source = .ok program := by
  rw [compile_eq]
  dsimp only
  split
  · exact .inl ⟨_, rfl⟩
  · split
    · exact .inr (.inl ⟨_, rfl⟩)
    · exact .inr (.inr ⟨_, rfl⟩)

theorem compile_eq_ok {source : String} {program : Program} (h : compile source = .ok program) :
    let root := (Parser.ofString source).parse.1
    let c := Checker.empty.check root
    (Parser.ofString source).parse.2.hasError = false ∧ c.hasError = false ∧
      program = (Generator.empty.generate (c.types[·]?) root).program := by
  rw [compile_eq] at h
  dsimp only at h ⊢
  split at h
  · cases h
  · split at h
    · cases h
    · cases h
      exact ⟨Bool.eq_false_iff.mpr ‹_›, Bool.eq_false_iff.mpr ‹_›, rfl⟩

def Ends {m : Type → Type} [Monad m] (P : Ending → Prop) (x : m Ending) : Prop :=
  ∃ y : m { e : Ending // P e }, Subtype.val <$> y = x

namespace Ends

variable {m : Type → Type} [Monad m] [LawfulMonad m] {P : Ending → Prop}

theorem pure {e : Ending} (h : P e) : Ends P (Pure.pure e : m Ending) :=
  ⟨Pure.pure ⟨e, h⟩, map_pure _ _⟩

theorem bind {α : Type} {f : α → m Ending} (x : m α) (h : ∀ a, Ends P (f a)) :
    Ends P (x >>= f) := by
  refine ⟨x >>= fun a => (h a).choose, ?_⟩
  rw [map_bind]
  congr
  funext a
  exact (h a).choose_spec

theorem mono {Q : Ending → Prop} {x : m Ending} (hx : Ends P x) (h : ∀ e, P e → Q e) :
    Ends Q x := by
  obtain ⟨y, rfl⟩ := hx
  exact ⟨(fun e => ⟨e.val, h e.val e.property⟩) <$> y, by rw [← comp_map]; rfl⟩

end Ends

namespace Command

variable {m : Type → Type} [Monad m] [LawfulMonad m]

theorem writeProgram_ends (files : Files m) (file : String) (program : Program) :
    Ends (·.exit ∈ [0, 1]) (writeProgram files file program) := by
  refine .bind _ fun r => ?_
  cases r with
  | ok _ => exact .pure (by simp [Ending.success])
  | error fault => exact .pure (by simp [Ending.fileError])

theorem run_build_ends (files : Files m) (input : String) (output : Option String) :
    Ends (·.exit ∈ [0, 1, 3, 4]) (run files (.build input output)) := by
  refine .bind _ fun r => ?_
  cases r.bind decodeText with
  | error fault => exact .pure (by simp [Ending.fileError])
  | ok source =>
    obtain ⟨report, h⟩ | ⟨report, h⟩ | ⟨program, h⟩ := compile_cases source
    · simp only [work, h]
      exact .pure (by simp [Ending.compileError])
    · simp only [work, h]
      exact .pure (by simp [Ending.compileError])
    · simp only [work, h]
      refine (writeProgram_ends files _ program).mono fun e he => ?_
      simp only [List.mem_cons, List.not_mem_nil, or_false] at he ⊢
      omega

end Command

/-- A text that is read and checked without a report has code: the making of it meets a recorded
type and a size wherever it needs one, and reports nothing. So no build ends with code 5. -/
theorem Generator.generate_never_fails {m : Type → Type} [Monad m] [LawfulMonad m] (source : String)
    (files : Files m) (input : String) (output : Option String) :
    (let root := (Parser.ofString source).parse.1
      let checker := Checker.empty.check root
      let generator := Generator.empty.generate (checker.types[·]?) root
      (Parser.ofString source).parse.2.hasError = false → checker.hasError = false →
        (∀ n ∈ root.preorder, n.Ready (checker.types[·]?)) ∧
          generator.hasError = false ∧ generator.errorReport = "") ∧
      Ends (·.exit ≠ 5) (Command.run files (.build input output)) := by
  refine ⟨fun hp hc => ?_, (Command.run_build_ends files input output).mono fun e he => ?_⟩
  · have hr := ready_of_quiet hp hc
    have hg : _ = [] := Generator.generate_ready hr .empty
    exact ⟨hr, by simp [Generator.hasError, hg], by simp [Generator.errorReport, hg]⟩
  · simp only [List.mem_cons, List.not_mem_nil, or_false] at he
    omega

def sampleText : String :=
  "array grid : float[2][3];
  func pick(x : float, on : bool) : float \x7b
    while not on \x7b let grid[1][0] = x; \x7d
    return ::pick(grid[0][2] / 2.5, on and (x < 1.5));
  \x7d"

theorem Generator.generate_sample :
    ((Parser.ofString sampleText).parse.2.hasError = false ∧
      (Checker.empty.check (Parser.ofString sampleText).parse.1).hasError = false) ∧
      (Generator.empty.generate
        ((Checker.empty.check (Parser.ofString sampleText).parse.1).types[·]?)
        (Parser.ofString sampleText).parse.1).errorReport = "" := by
  have hp : (Parser.ofString sampleText).parse.2.hasError = false := by decide +kernel
  have hc : (Checker.empty.check (Parser.ofString sampleText).parse.1).hasError = false := by
    decide +kernel
  have h := Generator.generate_never_fails (m := Id) sampleText
    ⟨fun _ => .ok sampleText.toUTF8, fun _ _ => .ok ()⟩ "sample.crx" none
  exact ⟨⟨hp, hc⟩, (h.1 hp hc).2.2⟩

end Crux
