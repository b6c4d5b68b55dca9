import Crux.Proofs.Grammar.Accepts
import Crux.Proofs.Phrase.Numbering
import Crux.Proofs.Typing.Values
import Mathlib.Data.List.Induction

namespace Crux

namespace Node

variable {n a b c : Node}

theorem Listed.one (hn : n.TakesList) (hc : n.children = [a]) (ha : a.Listed) : n.Listed :=
  forall_preorder hn (hc ▸ List.forall_mem_singleton.mpr ha)

theorem Listed.two (hn : n.TakesList) (hc : n.children = [a, b]) (ha : a.Listed)
    (hb : b.Listed) : n.Listed :=
  forall_preorder hn (hc ▸ List.forall_mem_cons.mpr ⟨ha, List.forall_mem_singleton.mpr hb⟩)

theorem Listed.three (hn : n.TakesList) (he : n.children = [a, b, c]) (ha : a.Listed)
    (hb : b.Listed) (hc : c.Listed) : n.Listed :=
  forall_preorder hn (he ▸ List.forall_mem_cons.mpr
    ⟨ha, List.forall_mem_cons.mpr ⟨hb, List.forall_mem_singleton.mpr hc⟩⟩)

end Node

def Form.Listed : (f : Form) → f.Result → Prop
  | .arguments, ns | .further, ns => ∀ n ∈ ns, n.Listed
  | .operand, n | .product, n | .sum, n | .comparison, n | .designator, n | .call, n => n.Listed

theorem Phrase.operation_listed {op : Token} {left : Node} {right : Node × Draft}
    (hl : left.Listed) (hr : right.1.Listed) : (operation op left right).1.Listed := by
  have htakes (tag : Tag) : (Parse.operatorNode op.kind left right.1 tag).TakesList := by
    unfold Parse.operatorNode
    split <;> trivial
  exact .two (htakes _) (Parse.operatorNode_pair ..).1 hl hr

theorem Phrase.build_listed {f : Form} (ph : Phrase f) (d : Draft) :
    f.Listed (ph.build d).1 := by
  induction ph generalizing d with
  | literal t =>
    have htakes (tag : Tag) : (Parse.literalNode t.val tag).TakesList := by
      unfold Parse.literalNode
      split
      · dsimp only
        split <;> trivial
      · split <;> trivial
      · trivial
      · trivial
    exact Node.forall_leaf (Parse.literalNode_leaf ..).1 (htakes _)
  | not mark inner ih => exact Node.Listed.one trivial rfl (ih d)
  | group left inner right ih => exact ih d
  | value address ih => exact Node.Listed.one trivial rfl (ih d)
  | result c ih => exact ih d
  | name ident => exact Node.forall_leaf rfl trivial
  | element base left amount right ihb iha => exact Node.Listed.two trivial rfl (ihb d) (iha _)
  | call mark ident left args right ih =>
    exact Node.Listed.one rfl rfl (Node.forall_preorder trivial (ih _))
  | noArguments | noFurther => exact List.forall_mem_nil _
  | arguments first rest ihf ihr => exact List.forall_mem_cons.mpr ⟨ihf d, ihr _⟩
  | further comma next rest ihn ihr => exact List.forall_mem_cons.mpr ⟨ihn d, ihr _⟩
  | factor e ih | term e ih | plain e ih => exact ih d
  | product left op right ihl ihr | sum left op right ihl ihr | comparison left op right ihl ihr =>
    exact operation_listed (ihl d) (ihr _)

def StatementForm.Listed : (f : StatementForm) → f.Result → Prop
  | .statements, ns => ∀ n ∈ ns, n.Listed
  | .statement, n => n.Listed
  | .block, n => n.isList ∧ n.Listed

theorem StatementPhrase.build_listed {f : StatementForm} (s : StatementPhrase f) (after : Position)
    (d : Draft) : f.Listed (s.build after d).1 := by
  induction s generalizing after d with
  | var v | array a => exact Node.forall_leaf rfl trivial
  | call c stop => exact c.build_listed d
  | assign start target mark source stop =>
    exact Node.Listed.two trivial rfl (target.build_listed d) (source.build_listed _)
  | branch start condition yes ih =>
    exact Node.Listed.three trivial rfl (condition.build_listed d) (ih _ _).2
      (Node.forall_leaf rfl trivial)
  | branchElse start condition yes mark no ihy ihn =>
    exact Node.Listed.three trivial rfl (condition.build_listed d) (ihy _ _).2 (ihn _ _).2
  | loop start condition body ih =>
    exact Node.Listed.two trivial rfl (condition.build_listed d) (ih _ _).2
  | leave start stop => exact Node.forall_leaf rfl trivial
  | leaveWith start result stop =>
    exact Node.Listed.one trivial rfl (result.build_listed d)
  | block left items right ih => exact ⟨rfl, Node.forall_preorder trivial (ih _ _)⟩
  | none => exact List.forall_mem_nil _
  | next first rest ihf ihr => exact List.forall_mem_cons.mpr ⟨ihf _ d, ihr _ _⟩

theorem DeclarationPhrase.build_listed (x : DeclarationPhrase) (d : Draft) :
    (x.build d).1.Listed := by
  cases x with
  | var v | array a => exact Node.forall_leaf rfl trivial
  | function f =>
    obtain ⟨hlist, hbody⟩ := f.body.build_listed .start _
    exact .one hlist rfl hbody

theorem ProgramPhrase.build_listed (p : ProgramPhrase) (d : Draft) : (p.build d).1.Listed := by
  have h (l : List DeclarationPhrase) (d : Draft) :
      ∀ n ∈ (Draft.forEach DeclarationPhrase.build l d).1, n.Listed := by
    induction l generalizing d with
    | nil => exact List.forall_mem_nil _
    | cons x l ih => exact List.forall_mem_cons.mpr ⟨x.build_listed d, ih _⟩
  exact Node.forall_preorder trivial (h p.items d)

theorem Parser.parse_listed (source : String) : (ofString source).parse.1.Listed := by
  cases hp : Parse.program (ofString source) with
  | done root q =>
    obtain ⟨ph, e⟩ := ((program_done_iff source).mp ⟨root, q, hp⟩).exists_phrase
    rw [ofString, e, parse_ofTokens]
    exact ph.build_listed .initial
  | stuck pos q =>
    rw [parse, hp]
    exact Node.forall_leaf rfl trivial

theorem Node.list_mem_findings {m n : Node} (h : m ∈ n.preorder) (hl : m.isList)
    (e : Option Enclosing) : ∃ ts, .list m.id ts ∈ n.findings e := by
  induction n using children_induction generalizing e with
  | step n ih =>
    obtain rfl | ⟨c, hc, hm⟩ := mem_preorder.mp h
    · cases m with
      | list => exact ⟨_, List.mem_append_right _ List.mem_cons_self⟩
      | _ => cases hl
    · obtain ⟨e', hf⟩ := findings_child hc e
      obtain ⟨ts, hts⟩ := ih c hc hm e'
      exact ⟨ts, hf _ hts⟩

namespace Checker

def checkAll (c : Checker) (roots : List Node) : Checker := roots.foldl check c

theorem check_eq_add {root : Node} (h : root.Listed) (c : Checker) :
    c.check root = c.add (root.findings none) :=
  congrArg Prod.snd ((Node.notes_check h none).run_eq c)

/-- An entry of a checker that each finding either keeps or sets. Once it has been set, nothing from
before can be seen in it. -/
theorem add_settles {β : Type} (entry : Checker → Option β)
    (hv : ∀ f, (∀ c, entry (note c f) = entry c) ∨ ∃ b, ∀ c, entry (note c f) = some b)
    {f : Finding} (hset : ∃ b, ∀ c, entry (note c f) = some b) {fs : List Finding} (hf : f ∈ fs) :
    ∃ b, ∀ c, entry (add c fs) = some b := by
  -- The last finding that sets the entry decides, so the list is taken apart from its end.
  induction fs using List.reverseRecOn with
  | nil => cases hf
  | append_singleton fs g ih =>
    have hlast (c : Checker) : add c (fs ++ [g]) = note (add c fs) g := add_append ..
    obtain hkeep | ⟨b, hb⟩ := hv g
    · obtain hf | hf := List.mem_append.mp hf
      · obtain ⟨b, hb⟩ := ih hf
        exact ⟨b, fun c => by rw [hlast, hkeep, hb]⟩
      · obtain rfl := List.mem_singleton.mp hf
        obtain ⟨b, hb⟩ := hset
        exact ⟨b, fun c => by rw [hlast, hb]⟩
    · exact ⟨b, fun c => by rw [hlast, hb]⟩

variable {n root : Node}

theorem types_settled (h : root.Listed) (hn : n ∈ root.preorder) (hl : n.isList = false) :
    ∃ t, ∀ c, (check c root).typeOf? n = some t := by
  obtain ⟨e, hf⟩ := Node.mem_findings hn hl none
  simp only [check_eq_add h]
  refine add_settles (·.typeOf? n) (fun f => ?_) ⟨_, fun c => Std.TreeMap.getElem?_insert_self⟩ hf
  cases f with
  | type id t =>
    by_cases h : id = n.id
    · subst h
      exact .inr ⟨t, fun c => Std.TreeMap.getElem?_insert_self⟩
    · exact .inl fun c => by simp [typeOf?, note, Std.TreeMap.getElem?_insert, h]
  | list | error => exact .inl fun c => rfl

theorem lists_settled (h : root.Listed) (hn : n ∈ root.preorder) (hl : n.isList) :
    ∃ ts, ∀ c, (check c root).listTypesOf? n = some ts := by
  obtain ⟨ts, hf⟩ := Node.list_mem_findings hn hl none
  simp only [check_eq_add h]
  refine add_settles (·.listTypesOf? n) (fun f => ?_)
    ⟨_, fun c => Std.TreeMap.getElem?_insert_self⟩ hf
  cases f with
  | list id ts =>
    by_cases h : id = n.id
    · subst h
      exact .inr ⟨ts, fun c => Std.TreeMap.getElem?_insert_self⟩
    · exact .inl fun c => by simp [listTypesOf?, note, Std.TreeMap.getElem?_insert, h]
  | type | error => exact .inl fun c => rfl

theorem errors_check (h : root.Listed) (c : Checker) :
    (c.check root).errors = c.errors ++ (empty.check root).errors := by
  rw [check_eq_add h, check_eq_add h, errors_add, errors_add]
  rfl

theorem errors_checkAll {roots : List Node} (h : ∀ r ∈ roots, r.Listed) (c : Checker) :
    (c.checkAll roots).errors = c.errors ++ roots.flatMap fun r => (empty.check r).errors := by
  induction roots generalizing c with
  | nil => exact (List.append_nil _).symm
  | cons r roots ih =>
    obtain ⟨hr, hrest⟩ := List.forall_mem_cons.mp h
    show ((c.check r).checkAll roots).errors = _
    rw [ih hrest, errors_check hr, List.append_assoc, List.flatMap_cons]

theorem errorReport_eq_join {α : Type} {c : Checker} {checker : α → Checker} {items : List α}
    (h : c.errors = items.flatMap fun a => (checker a).errors) :
    c.errorReport = String.join (items.map fun a => (checker a).errorReport) := by
  rw [errorReport, h]
  clear h
  induction items with
  | nil => rfl
  | cons a items ih =>
    rw [List.flatMap_cons, List.map_append, String.join_append, ih, List.map_cons, String.join_cons,
      errorReport]

theorem errorReport_eq_empty {c : Checker} : c.errorReport = "" ↔ c.errors = [] := by
  rw [errorReport]
  cases c.errors with
  | nil => exact iff_of_true rfl rfl
  | cons x xs =>
    rw [List.map_cons, String.join_cons]
    simp

/-- A checker that has checked other programs before finds in a program what a new one finds: the
same types and types of members, and its own report behind the earlier ones. -/
theorem check_reused (earlier : List String) (source : String) :
    let tree := fun s => (Parser.ofString s).parse.1
    let fresh := fun s => empty.check (tree s)
    let shared := (empty.checkAll (earlier.map tree)).check (tree source)
    (∀ n ∈ (tree source).preorder, n.isList = false →
      ∃ t, (fresh source).typeOf? n = some t ∧ shared.typeOf? n = some t) ∧
    (∀ n ∈ (tree source).preorder, n.isList →
      ∃ ts, (fresh source).listTypesOf? n = some ts ∧ shared.listTypesOf? n = some ts) ∧
    shared.errorReport = String.join ((earlier ++ [source]).map fun s => (fresh s).errorReport) ∧
    (shared.hasError = false ↔ ∀ s ∈ earlier ++ [source], (fresh s).errorReport = "") := by
  intro tree fresh shared
  have hl (s : String) : (tree s).Listed := Parser.parse_listed s
  have herrors : shared.errors = (earlier ++ [source]).flatMap fun s => (fresh s).errors := by
    rw [errors_check (hl source), errors_checkAll (by simpa using fun s _ => hl s)]
    simp [List.flatMap_map, fresh, empty]
  refine ⟨fun n hn hn' => ?_, fun n hn hn' => ?_, errorReport_eq_join herrors, ?_⟩
  · obtain ⟨t, ht⟩ := types_settled (hl source) hn hn'
    exact ⟨t, ht _, ht _⟩
  · obtain ⟨ts, hts⟩ := lists_settled (hl source) hn hn'
    exact ⟨ts, hts _, hts _⟩
  · simp only [errorReport_eq_empty]
    rw [hasError, herrors, Bool.not_eq_false', List.isEmpty_iff, List.flatMap_eq_nil_iff]

end Checker

end Crux
