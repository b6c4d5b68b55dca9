import Crux.Node.Basic
import Crux.Proofs.Node.Order
import Crux.Proofs.Text.Lines
import Mathlib.Data.List.Forall2

namespace Crux

namespace Text

def indentation (line : List Char) : Nat × List Char :=
  ((line.takeWhile (· == ' ')).length, line.dropWhile (· == ' '))

theorem indentation_blanks (k : Nat) {text : List Char} (h : text.head? ≠ some ' ') :
    indentation (List.replicate k ' ' ++ text) = (k, text) := by
  induction k with
  | zero =>
    cases text with
    | nil => rfl
    | cons c text =>
      have hc : (c == ' ') = false := beq_false_of_ne fun e => h (congrArg some e)
      simp [indentation, hc]
  | succ k ih =>
    rw [indentation, Prod.mk.injEq] at ih ⊢
    rw [List.replicate_succ, List.cons_append, List.takeWhile_cons_of_pos rfl,
      List.dropWhile_cons_of_pos rfl, List.length_cons]
    exact ⟨congrArg (· + 1) ih.1, ih.2⟩

end Text

@[ext]
structure Shown where
  title : String
  letters : ∀ c ∈ title.toList, c.isAlpha
  pos : Position
  detail? : Option String

namespace Shown

def entry (x : Shown) : String :=
  s!"{x.title}[{x.pos.render}]" ++ (x.detail?.map fun d => s!"({d})").getD ""

def line (depth : Nat) (x : Shown) : String :=
  String.ofList (List.replicate (2 * depth) ' ') ++ x.entry

variable {x y : Shown}

theorem not_mem_title {c : Char} (h : c.isAlpha = false) : c ∉ x.title.toList := by
  intro hc
  rw [x.letters c hc] at h
  cases h

theorem toList_entry : x.entry.toList =
    x.title.toList ++ '[' :: (Nat.toDigits 10 x.pos.line ++ ',' ::
      (Nat.toDigits 10 x.pos.column ++ ']' ::
        x.detail?.elim [] fun d => '(' :: (d.toList ++ [')']))) := by
  have hpos : x.pos.render.toList =
      Nat.toDigits 10 x.pos.line ++ ',' :: Nat.toDigits 10 x.pos.column := by
    simp [Position.render, toString]
  cases h : x.detail? with
  | none => simp [entry, h, hpos, toString]
  | some d => simp [entry, h, hpos, toString]

theorem entry_inj (h : x.entry = y.entry) : x = y := by
  have h := congrArg String.toList h
  rw [toList_entry, toList_entry] at h
  obtain ⟨htitle, h⟩ :=
    Text.append_cons_inj (not_mem_title (by decide)) (not_mem_title (by decide)) h
  obtain ⟨hline, h⟩ := Text.digits_append_inj (by decide) h
  obtain ⟨hcolumn, h⟩ := Text.digits_append_inj (by decide) h
  have hdetail : x.detail? = y.detail? := by
    cases hx : x.detail? with
    | none => cases hy : y.detail? with
      | none => rfl
      | some e => simp [hx, hy] at h
    | some d => cases hy : y.detail? with
      | none => simp [hx, hy] at h
      | some e => simpa [hx, hy, String.toList_inj] using h
  refine Shown.ext (String.toList_inj.mp htitle) ?_ hdetail
  rw [Position.mk.injEq]
  exact ⟨hline, hcolumn⟩

theorem indentation_line (depth : Nat) :
    Text.indentation (x.line depth).toList = (2 * depth, x.entry.toList) := by
  rw [line, String.toList_append, String.toList_ofList]
  refine Text.indentation_blanks _ ?_
  rw [toList_entry]
  cases h : x.title.toList with
  | nil => simp
  | cons c rest =>
    have hc : ' ' ∉ c :: rest := h ▸ not_mem_title (by decide)
    simp only [List.cons_append, List.head?_cons, ne_eq, Option.some.injEq]
    exact fun e => hc (e ▸ List.mem_cons_self)

theorem line_inj {d e : Nat} (h : x.line d = y.line e) : d = e ∧ x = y := by
  have h := congrArg (Text.indentation ·.toList) h
  simp only [indentation_line, Prod.mk.injEq, String.toList_inj] at h
  exact ⟨by omega, entry_inj h.2⟩

theorem oneLine_line (h : ∀ text ∈ x.detail?, OneLine text) (depth : Nat) :
    OneLine (x.line depth) := by
  have hblanks : OneLine (String.ofList (List.replicate (2 * depth) ' ')) := by
    simp [OneLine]
  rw [line, oneLine_append]
  refine ⟨hblanks, ?_⟩
  have htitle : '\n' ∉ x.title.toList := not_mem_title (by decide)
  have hdigits (n : Nat) : '\n' ∉ Nat.toDigits 10 n := Text.not_mem_toDigits (by decide) n
  rw [OneLine, toList_entry]
  cases hx : x.detail? with
  | none => simp [htitle, hdigits]
  | some d =>
    have hd : '\n' ∉ d.toList := h d hx
    simp [htitle, hdigits, hd]

end Shown

namespace Node

def at? (n : Node) : (path : List Nat) → Option Node
  | [] => some n
  | i :: path => n.children[i]?.bind (·.at? path)

theorem title_letters (n : Node) : ∀ c ∈ n.title.toList, c.isAlpha := by
  have hop (op : BinaryOp) : op.title.toList.all Char.isAlpha := by cases op <;> decide
  have hkind (kind : ListKind) : kind.title.toList.all Char.isAlpha := by cases kind <;> decide
  rw [← List.all_eq_true]
  cases n with
  | binary _ op => exact hop op
  | list _ kind => exact hkind kind
  | _ => rw [title]; decide

def shown (n : Node) : Shown := ⟨n.title, n.title_letters, n.pos, n.detail?⟩

/-- Every way down comes to an end in both trees or in none, at nodes that look the same. -/
def Alike (m n : Node) : Prop := ∀ path, (m.at? path).map shown = (n.at? path).map shown

def Legible (n : Node) : Prop := ∀ m ∈ n.preorder, ∀ text ∈ m.detail?, OneLine text

/-- The lines stand for the nodes of the tree, one for each. A way comes before those that go on
from it and before those that turn off behind it. -/
structure LinesUp (n : Node) (paths : List (List Nat)) (lines : List (List Char)) : Prop where
  sorted : paths.Pairwise (List.Lex (· < ·))
  mem_iff : ∀ path, path ∈ paths ↔ ∃ m, n.at? path = some m
  line : List.Forall₂ (fun path line => ∃ m, n.at? path = some m ∧
    Text.indentation line = (2 * path.length, m.shown.entry.toList)) paths lines

def sketch (depth : Nat) (n : Node) : List (Nat × Shown) :=
  (n.walk depth).map fun x => (x.1, x.2.shown)

theorem sketch_eq (depth : Nat) (n : Node) :
    n.sketch depth = (depth, n.shown) :: n.children.flatMap (sketch (depth + 1)) := by
  rw [sketch, walk_eq, List.map_cons, List.map_flatMap]
  rfl

theorem outline_eq (n : Node) :
    n.outline = String.join (((n.sketch 0).map fun x => x.2.line x.1).map (· ++ "\n")) := by
  rw [outline, sketch, List.map_map, List.map_map]
  congr 2
  funext x
  simp [outlineLine, Shown.line, Shown.entry, shown, render, String.append_assoc]

theorem splitOn_outline {n : Node} (h : n.Legible) : n.outline.toList.splitOn '\n' =
    ((n.sketch 0).map fun x => (x.2.line x.1).toList) ++ [[]] := by
  rw [outline_eq, Text.splitOn_join, List.map_map]
  · rfl
  · simp only [sketch, List.map_map, List.forall_mem_map]
    exact fun x hx => Shown.oneLine_line (h x.2 (List.mem_map_of_mem hx)) x.1

theorem sketch_of_outline {m n : Node} (hm : m.Legible) (hn : n.Legible)
    (h : m.outline = n.outline) : m.sketch 0 = n.sketch 0 := by
  have h := congrArg (·.toList.splitOn '\n') h
  simp only [splitOn_outline hm, splitOn_outline hn, List.append_cancel_right_eq] at h
  refine (List.map_inj_right ?_).mp h
  rintro ⟨d, x⟩ ⟨e, y⟩ hline
  obtain ⟨rfl, rfl⟩ := Shown.line_inj (String.toList_inj.mp hline)
  rfl

theorem forall₂_alike {cs cs' : List Node} : List.Forall₂ Alike cs cs' ↔ ∀ (i : Nat) path,
    (cs[i]?.bind (at? · path)).map shown = (cs'[i]?.bind (at? · path)).map shown := by
  constructor
  · intro h
    induction h with
    | nil => exact fun _ _ => rfl
    | cons hc _ ih =>
      intro i path
      cases i with
      | zero => exact hc path
      | succ i => exact ih i path
  · intro h
    induction cs generalizing cs' with
    | nil => cases cs' with
      | nil => exact .nil
      | cons c' cs' => cases h 0 []
    | cons c cs ih => cases cs' with
      | nil => cases h 0 []
      | cons c' cs' => exact .cons (h 0) (ih fun i => h (i + 1))

theorem alike_iff {m n : Node} :
    m.Alike n ↔ m.shown = n.shown ∧ List.Forall₂ Alike m.children n.children := by
  rw [forall₂_alike]
  constructor
  · exact fun h => ⟨Option.some.inj (h []), fun i path => h (i :: path)⟩
  · rintro ⟨hshown, hchildren⟩ path
    cases path with
    | nil => exact congrArg some hshown
    | cons i path => exact hchildren i path

theorem Alike.sketch_eq {m n : Node} (h : m.Alike n) (depth : Nat) :
    m.sketch depth = n.sketch depth := by
  induction m using children_induction generalizing n depth with
  | step m ih =>
    obtain ⟨hshown, hchildren⟩ := alike_iff.mp h
    rw [Node.sketch_eq, Node.sketch_eq, hshown]
    congr 1
    generalize m.children = cs at hchildren ih
    generalize n.children = cs' at hchildren
    induction hchildren with
    | nil => rfl
    | cons hc _ ihs =>
      obtain ⟨ihc, ih⟩ := List.forall_mem_cons.mp ih
      rw [List.flatMap_cons, List.flatMap_cons, ihc hc, ihs ih]

def NotBelow (depth : Nat) (rest : List (Nat × Shown)) : Prop := ∀ x ∈ rest.head?, x.1 ≤ depth

theorem notBelow_sketches {depth : Nat} {rest : List (Nat × Shown)} (h : NotBelow depth rest)
    (cs : List Node) : NotBelow (depth + 1) (cs.flatMap (sketch (depth + 1)) ++ rest) := by
  cases cs with
  | nil => exact fun x hx => Nat.le_succ_of_le (h x hx)
  | cons c cs =>
    rw [List.flatMap_cons, sketch_eq]
    rintro x ⟨⟩
    exact Nat.le_refl _

theorem not_notBelow_sketches (depth : Nat) (c : Node) (rest : List (Nat × Shown)) :
    ¬ NotBelow depth (c.sketch (depth + 1) ++ rest) := by
  rw [sketch_eq]
  intro h
  exact absurd (h _ rfl) (Nat.not_succ_le_self depth)

/-- A tree is told from its sketch, whatever comes behind it. -/
theorem alike_of_sketch {m n : Node} {depth : Nat} {rest rest' : List (Nat × Shown)}
    (hrest : NotBelow depth rest) (hrest' : NotBelow depth rest')
    (h : m.sketch depth ++ rest = n.sketch depth ++ rest') : m.Alike n ∧ rest = rest' := by
  induction m using children_induction generalizing n depth rest rest' with
  | step m ih =>
    rw [sketch_eq, sketch_eq, List.cons_append, List.cons_append, List.cons.injEq] at h
    obtain ⟨hroot, h⟩ := h
    suffices hs : List.Forall₂ Alike m.children n.children ∧ rest = rest' from
      ⟨alike_iff.mpr ⟨congrArg Prod.snd hroot, hs.1⟩, hs.2⟩
    -- The depth at the front says whether one more child follows.
    generalize n.children = cs' at h
    generalize m.children = cs at h ih
    induction cs generalizing cs' with
    | nil => cases cs' with
      | nil => exact ⟨.nil, h⟩
      | cons c' cs' =>
        rw [List.flatMap_nil, List.nil_append, List.flatMap_cons, List.append_assoc] at h
        exact absurd (h ▸ hrest) (not_notBelow_sketches depth c' _)
    | cons c cs ihs =>
      obtain ⟨ihc, ih⟩ := List.forall_mem_cons.mp ih
      cases cs' with
      | nil =>
        rw [List.flatMap_nil, List.nil_append, List.flatMap_cons, List.append_assoc] at h
        exact absurd (h ▸ hrest') (not_notBelow_sketches depth c _)
      | cons c' cs' =>
        rw [List.flatMap_cons, List.flatMap_cons, List.append_assoc, List.append_assoc] at h
        obtain ⟨hc, h⟩ := ihc (notBelow_sketches hrest cs) (notBelow_sketches hrest' cs') h
        obtain ⟨hcs, h⟩ := ihs cs' h ih
        exact ⟨.cons hc hcs, h⟩

theorem outline_eq_iff {m n : Node} (hm : m.Legible) (hn : n.Legible) :
    m.outline = n.outline ↔ m.Alike n := by
  constructor
  · intro h
    have hsketch := congrArg (· ++ []) (sketch_of_outline hm hn h)
    exact (alike_of_sketch (by rintro x ⟨⟩) (by rintro x ⟨⟩) hsketch).1
  · intro h
    rw [outline_eq, outline_eq, h.sketch_eq]

theorem exists_paths (n : Node) : ∃ paths : List (List Nat),
    paths.Pairwise (List.Lex (· < ·)) ∧ (∀ path m, n.at? path = some m → path ∈ paths) ∧
    ∀ depth, List.Forall₂ (fun path x => ∃ m, n.at? path = some m ∧
      x = (depth + path.length, m.shown)) paths (n.sketch depth) := by
  induction n using children_induction with
  | step n ih =>
    choose below hsorted hmem hline using fun i : Fin n.children.length =>
      ih (n.children.get i) (List.get_mem _ i)
    have hat (i : Fin n.children.length) (path : List Nat) :
        n.at? (i :: path) = (n.children.get i).at? path := by
      simp [at?]
    refine ⟨[] :: (List.finRange _).flatMap fun i => (below i).map (i.val :: ·), ?_, ?_, ?_⟩
    · refine List.pairwise_cons.mpr ⟨?_, List.pairwise_flatMap.mpr ⟨?_, ?_⟩⟩
      · simp only [List.mem_flatMap, List.mem_map]
        rintro path ⟨i, -, path, -, rfl⟩
        exact .nil
      · exact fun i _ => List.pairwise_map.mpr ((hsorted i).imp .cons)
      · refine (List.pairwise_lt_finRange _).imp ?_
        simp only [List.mem_map]
        rintro i j hij _ ⟨path, -, rfl⟩ _ ⟨path', -, rfl⟩
        exact .rel hij
    · rintro (_ | ⟨i, path⟩) m hm
      · exact List.mem_cons_self
      · obtain ⟨c, hc, hpath⟩ := Option.bind_eq_some_iff.mp hm
        obtain ⟨hi, rfl⟩ := List.getElem?_eq_some_iff.mp hc
        refine List.mem_cons_of_mem _ (List.mem_flatMap.mpr ⟨⟨i, hi⟩, List.mem_finRange _, ?_⟩)
        exact List.mem_map_of_mem (hmem ⟨i, hi⟩ path m hpath)
    · intro depth
      rw [sketch_eq]
      refine .cons ⟨n, rfl, rfl⟩ ?_
      have hchildren : List.Forall₂ (fun i c => n.children.get i = c)
          (List.finRange _) n.children := by
        rw [← List.forall₂_map_left_iff, List.map_get_finRange]
        exact List.forall₂_refl _
      refine List.rel_flatMap hchildren ?_
      rintro i c rfl
      refine List.forall₂_map_left_iff.mpr ((hline i (depth + 1)).imp ?_)
      rintro path x ⟨m, hm, rfl⟩
      refine ⟨m, (hat i path).trans hm, ?_⟩
      rw [List.length_cons, Nat.add_right_comm, Nat.add_assoc]

theorem outline_linesUp {n : Node} (h : n.Legible) : ∃ paths lines,
    n.outline.toList.splitOn '\n' = lines ++ [[]] ∧ n.LinesUp paths lines := by
  obtain ⟨paths, hsorted, hmem, hline⟩ := n.exists_paths
  have hfound : ∀ path ∈ paths, ∃ m, n.at? path = some m := by
    have hends : List.Forall₂ (fun path _ => (∃ m, n.at? path = some m) ∧ True) paths
        (n.sketch 0) := by
      refine (hline 0).imp ?_
      rintro path x ⟨m, hm, -⟩
      exact ⟨⟨m, hm⟩, trivial⟩
    exact ((List.forall₂_and_left _ _).mp hends).1
  refine ⟨paths, _, splitOn_outline h, hsorted, fun path => ⟨hfound path, ?_⟩, ?_⟩
  · rintro ⟨m, hm⟩
    exact hmem path m hm
  · refine List.forall₂_map_right_iff.mpr ((hline 0).imp ?_)
    rintro path x ⟨m, hm, rfl⟩
    refine ⟨m, hm, ?_⟩
    rw [Shown.indentation_line, Nat.zero_add]

end Node

end Crux
