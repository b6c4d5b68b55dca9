import Crux.Proofs.Grammar.Legible
import Crux.Proofs.Typing.Equivalence

namespace Crux

namespace Ty

def text (t : Ty) : List Char := t.render.toList

def listText (ts : List Ty) : List Char := [',', ' '].intercalate (ts.map text)

def nextText (t : Ty) : List Char := ',' :: ' ' :: t.text

@[simp] theorem text_int : int.text = ['i', 'n', 't'] := by
  simp [text, render]

@[simp] theorem text_float : float.text = ['f', 'l', 'o', 'a', 't'] := by
  simp [text, render]

@[simp] theorem text_bool : bool.text = ['b', 'o', 'o', 'l'] := by
  simp [text, render]

@[simp] theorem text_void : void.text = ['v', 'o', 'i', 'd'] := by
  simp [text, render]

@[simp] theorem text_array (extent : Nat) (t : Ty) : (array extent t).text =
    "array[".toList ++ (Nat.toDigits 10 extent ++ ',' :: (t.text ++ [']'])) := by
  simp [text, render, toString]

@[simp] theorem text_address (t : Ty) :
    (address t).text = "Address(".toList ++ (t.text ++ [')']) := by
  simp [text, render, toString]

theorem toList_renderAll (ts : List Ty) :
    [',', ' '].intercalate ((renderAll ts).map String.toList) = listText ts := by
  rw [renderAll_eq_map, List.map_map]
  rfl

@[simp] theorem text_func (params : List Ty) (result : Ty) : (func params result).text =
    "func(TypeList(".toList ++ (listText params ++ ')' :: ')' :: ':' :: result.text) := by
  simp [text, render, toString, toList_renderAll]

@[simp] theorem text_error (message : String) :
    (error message).text = "ErrorType(".toList ++ (message.toList ++ [')']) := by
  simp [text, render, toString]

theorem head_text_ne (t : Ty) {s rest : List Char} : t.text ++ s ≠ ')' :: rest := by
  cases t <;> simp

theorem listText_cons (t : Ty) (ts : List Ty) :
    listText (t :: ts) = t.text ++ ts.flatMap nextText := by
  induction ts generalizing t with
  | nil => simp [listText, List.intercalate]
  | cons u ts ih =>
    have hrest : [',', ' '].intercalate (u.text :: ts.map text) = u.text ++ ts.flatMap nextText :=
      ih u
    rw [listText, List.map_cons, List.map_cons, List.intercalate_cons_cons, hrest]
    simp [nextText]

/-- The text of the type, whatever comes behind it, tells the type and where its text ends. -/
def Told (a : Ty) : Prop :=
  ∀ ⦃b : Ty⦄ ⦃s t : List Char⦄, a.text ++ s = b.text ++ t → a = b ∧ s = t

theorem told_next {as bs : List Ty} {s t : List Char} (ha : ∀ a ∈ as, a.Told)
    (h : as.flatMap nextText ++ ')' :: s = bs.flatMap nextText ++ ')' :: t) : as = bs ∧ s = t := by
  induction as generalizing bs with
  | nil => cases bs with
    | nil => simpa using h
    | cons b bs => simp [nextText] at h
  | cons a as ih => cases bs with
    | nil => simp [nextText] at h
    | cons b bs =>
      obtain ⟨ha, has⟩ := List.forall_mem_cons.mp ha
      simp only [List.flatMap_cons, nextText, List.cons_append, List.append_assoc,
        List.cons.injEq, true_and] at h
      obtain ⟨rfl, hnext⟩ := ha h
      obtain ⟨rfl, hrest⟩ := ih has hnext
      exact ⟨rfl, hrest⟩

theorem told_list {as bs : List Ty} {s t : List Char} (ha : ∀ a ∈ as, a.Told)
    (h : listText as ++ ')' :: s = listText bs ++ ')' :: t) : as = bs ∧ s = t := by
  cases as with
  | nil => cases bs with
    | nil => exact ⟨rfl, List.tail_eq_of_cons_eq h⟩
    | cons b bs =>
      rw [listText_cons, List.append_assoc] at h
      exact absurd h.symm b.head_text_ne
  | cons a as => cases bs with
    | nil =>
      rw [listText_cons, List.append_assoc] at h
      exact absurd h a.head_text_ne
    | cons b bs =>
      obtain ⟨ha, has⟩ := List.forall_mem_cons.mp ha
      rw [listText_cons, listText_cons, List.append_assoc, List.append_assoc] at h
      obtain ⟨rfl, hnext⟩ := ha h
      obtain ⟨rfl, hrest⟩ := told_next has hnext
      exact ⟨rfl, hrest⟩

namespace Told

variable {params : List Ty} {t result : Ty}

theorem array (h : t.Told) (extent : Nat) : (array extent t).Told := by
  intro b s s' e
  cases b with
  | array extent' u =>
    simp only [text_array, List.append_assoc, List.append_cancel_left_eq, List.cons_append] at e
    obtain ⟨rfl, helement⟩ := Text.digits_append_inj (by decide) e
    obtain ⟨rfl, hrest⟩ := h helement
    exact ⟨rfl, List.tail_eq_of_cons_eq hrest⟩
  | _ => simp at e

theorem address (h : t.Told) : (address t).Told := by
  intro b s s' e
  cases b with
  | address u =>
    simp only [text_address, List.append_assoc, List.append_cancel_left_eq] at e
    obtain ⟨rfl, hrest⟩ := h e
    exact ⟨rfl, List.tail_eq_of_cons_eq hrest⟩
  | _ => simp at e

theorem func (hp : ∀ p ∈ params, p.Told) (hr : result.Told) : (func params result).Told := by
  intro b s s' e
  cases b with
  | func params' result' =>
    simp only [text_func, List.append_assoc, List.append_cancel_left_eq, List.cons_append] at e
    obtain ⟨rfl, hresult⟩ := told_list hp e
    simp only [List.cons.injEq, true_and] at hresult
    obtain ⟨rfl, hrest⟩ := hr hresult
    exact ⟨rfl, hrest⟩
  | _ => simp at e

end Told

/-- Types without errors are told by their texts. -/
theorem told_of_errorFree {a : Ty} (h : a.errorFree) : a.Told := by
  induction a using parts_induction with
  | step a ih =>
    obtain ⟨hroot, hparts⟩ := errorFree_iff_parts.mp h
    replace ih : ∀ u ∈ a.parts, u.Told := fun u hu => ih u hu (hparts u hu)
    cases a with
    | error message => cases hroot
    | array extent t => exact .array (ih t List.mem_cons_self) extent
    | address t => exact .address (ih t List.mem_cons_self)
    | func params result =>
      obtain ⟨hparams, hresult⟩ := List.forall_mem_append.mp ih
      exact .func hparams (hresult result List.mem_cons_self)
    | int | float | bool | void =>
      intro b s t e
      cases b <;> simp_all

variable {a b : Ty}

theorem text_append_inj (h : a.errorFree) {s t : List Char} :
    a.text ++ s = b.text ++ t ↔ a = b ∧ s = t := by
  constructor
  · exact fun e => told_of_errorFree h e
  · rintro ⟨rfl, rfl⟩
    rfl

theorem text_inj (h : a.errorFree) : a.text = b.text ↔ a = b := by
  have hends := text_append_inj (b := b) h (s := []) (t := [])
  simpa using hends

theorem listText_inj {as bs : List Ty} (h : ∀ a ∈ as, a.errorFree) :
    listText as = listText bs ↔ as = bs := by
  constructor
  · intro e
    exact (told_list (fun a ha => told_of_errorFree (h a ha)) (congrArg (· ++ [')']) e)).1
  · exact congrArg listText

end Ty

@[ext]
structure Wording where
  first : String
  second : String
  rest : List Char

namespace Wording

def chars (w : Wording) : List Char :=
  w.first.toList ++ ' ' :: (w.second.toList ++ ' ' :: w.rest)

def Plain (w : Wording) : Prop := ' ' ∉ w.first.toList ∧ ' ' ∉ w.second.toList

theorem eq_of_chars {w w' : Wording} (h : w.Plain) (h' : w'.Plain) (e : w.chars = w'.chars) :
    w = w' := by
  obtain ⟨hfirst, e⟩ := Text.append_cons_inj h.1 h'.1 e
  obtain ⟨hsecond, hrest⟩ := Text.append_cons_inj h.2 h'.2 e
  exact Wording.ext (String.toList_inj.mp hfirst) (String.toList_inj.mp hsecond) hrest

end Wording

open Ty (text listText text_inj text_append_inj listText_inj)

namespace Clash

def types : Clash → List Ty
  | .add a b | .sub a b | .mul a b | .div a b | .and a b | .or a b | .compare a b | .index a b
  | .assign a b => [a, b]
  | .not a | .dereference a => [a]
  | .call callee arguments => callee :: arguments

def pairing (verb : String) (a : Ty) (joint : String) (b : Ty) : Wording :=
  ⟨"Cannot", verb, a.text ++ (joint.toList ++ (b.text ++ ['.']))⟩

def wording : Clash → Wording
  | .add a b => pairing "add" a " with " b
  | .sub a b => pairing "subtract" b " from " a
  | .mul a b => pairing "multiply" a " with " b
  | .div a b => pairing "divide" a " by " b
  | .and a b => pairing "compute" a " and " b
  | .or a b => pairing "compute" a " or " b
  | .not a => ⟨"Cannot", "negate", a.text ++ ['.']⟩
  | .compare a b => pairing "compare" a " with " b
  | .dereference a => ⟨"Cannot", "dereference", a.text ++ ['.']⟩
  | .index base amount => pairing "index" base " with " amount
  | .assign target source => pairing "assign" source " to " target
  | .call callee arguments =>
    ⟨"Cannot", "call",
      callee.text ++ (" using TypeList(".toList ++ (listText arguments ++ [')', '.']))⟩

theorem toList_message (c : Clash) : c.message.toList = c.wording.chars := by
  -- A message is opened by its shape alone: its equations evaluate the texts in all of them.
  cases c with
  | not | dereference =>
    show (_ ++ _ ++ _ : String).toList = _
    simp [wording, Wording.chars, text, toString]
  | call callee arguments =>
    show (_ ++ _ ++ _ ++ _ ++ _ : String).toList = _
    simp [wording, Wording.chars, text, toString, Ty.renderList, Ty.toList_renderAll]
  | _ =>
    show (_ ++ _ ++ _ ++ _ ++ _ : String).toList = _
    simp [wording, pairing, Wording.chars, text, toString]

theorem plain_wording (c : Clash) : c.wording.Plain := by
  cases c <;> simp [wording, pairing, Wording.Plain]

theorem eq_of_wording {c c' : Clash} (h : ∀ t ∈ c.types, t.errorFree)
    (e : c.wording = c'.wording) : c = c' := by
  -- The verbs are different, but for those of `and` and `or`, which differ behind the first type.
  have hverb := congrArg Wording.second e
  cases c <;> cases c' <;> simp only [wording, pairing, String.reduceEq] at hverb
  all_goals simp_all [wording, pairing, types, text_append_inj, text_inj, listText_inj]

end Clash

namespace TypeFault

def types : TypeFault → List Ty
  | .variableType _ t | .arrayBase _ t | .condition _ t => [t]
  | .returned _ declared actual => [declared, actual]
  | .mainSignature | .voidParameter .. | .errorParameter .. | .missingReturn _ => []

def names : TypeFault → List String
  | .variableType name _ | .arrayBase name _ => [name]
  | .voidParameter function _ | .errorParameter function _ _ | .missingReturn function
  | .returned function _ _ => [function]
  | .condition construct _ => [construct]
  | .mainSignature => []

def wording : TypeFault → Wording
  | .variableType name t => ⟨"Variable", name, "has invalid type ".toList ++ (t.text ++ ['.'])⟩
  | .arrayBase name t => ⟨"Array", name, "has invalid base type ".toList ++ (t.text ++ ['.'])⟩
  | .mainSignature => ⟨"Function", "main", "has invalid signature.".toList⟩
  | .voidParameter function position =>
    ⟨"Function", function,
      "has a void argument in position ".toList ++ (Nat.toDigits 10 position ++ ['.'])⟩
  | .errorParameter function position message =>
    ⟨"Function", function, "has an error in argument in position ".toList ++
      (Nat.toDigits 10 position ++ ':' :: ' ' :: message.toList)⟩
  | .missingReturn function =>
    ⟨"Not", "all", "paths in function ".toList ++ (function.toList ++ " have a return.".toList)⟩
  | .condition construct t =>
    ⟨construct, "requires", "bool condition not ".toList ++ (t.text ++ ['.'])⟩
  | .returned function declared actual =>
    ⟨"Function", function,
      "returns ".toList ++ (declared.text ++ (" not ".toList ++ (actual.text ++ ['.'])))⟩

theorem toList_message (f : TypeFault) : f.message.toList = f.wording.chars := by
  cases f with
  | mainSignature => decide
  | missingReturn =>
    show (_ ++ _ ++ _ : String).toList = _
    simp [wording, Wording.chars, toString]
  | condition =>
    show (_ ++ _ ++ _ ++ _ : String).toList = _
    simp [wording, Wording.chars, text, toString]
  | variableType | arrayBase | voidParameter =>
    show (_ ++ _ ++ _ ++ _ ++ _ : String).toList = _
    simp [wording, Wording.chars, text, toString]
  | errorParameter =>
    show (_ ++ _ ++ _ ++ _ ++ _ ++ _ : String).toList = _
    simp [wording, Wording.chars, toString]
  | returned =>
    show (_ ++ _ ++ _ ++ _ ++ _ ++ _ ++ _ : String).toList = _
    simp [wording, Wording.chars, text, toString]

theorem plain_wording {f : TypeFault} (h : ∀ name ∈ f.names, isWord name) : f.wording.Plain := by
  have hblank : ∀ name ∈ f.names, ' ' ∉ name.toList := fun name hn =>
    not_mem_of_isWord (h name hn) (by decide)
  cases f <;> simp_all [wording, names, Wording.Plain]

theorem eq_of_wording {f f' : TypeFault} (h : ∀ t ∈ f.types, t.errorFree)
    (e : f.wording = f'.wording) : f = f' := by
  cases f with
  | voidParameter function position => cases f' with
    | voidParameter function' position' =>
      simp only [wording, Wording.mk.injEq, true_and, List.append_cancel_left_eq] at e
      rw [e.1, (Text.digits_append_inj (by decide) e.2).1]
    | _ => simp [wording] at e
  | errorParameter function position message => cases f' with
    | errorParameter function' position' message' =>
      simp only [wording, Wording.mk.injEq, true_and, List.append_cancel_left_eq] at e
      obtain ⟨hposition, hmessage⟩ := Text.digits_append_inj (by decide) e.2
      rw [e.1, hposition, String.toList_inj.mp (List.tail_eq_of_cons_eq hmessage)]
    | _ => simp [wording] at e
  | _ => cases f' <;> simp_all [wording, types, text_append_inj, text_inj, String.toList_inj]

end TypeFault

inductive Reason
  | clash : Clash → Reason
  | fault : TypeFault → Reason

namespace Reason

def message : Reason → String
  | .clash c => c.message
  | .fault f => f.message

def types : Reason → List Ty
  | .clash c => c.types
  | .fault f => f.types

def names : Reason → List String
  | .clash _ => []
  | .fault f => f.names

def wording : Reason → Wording
  | .clash c => c.wording
  | .fault f => f.wording

theorem toList_message (r : Reason) : r.message.toList = r.wording.chars := by
  cases r with
  | clash c => exact c.toList_message
  | fault f => exact f.toList_message

theorem plain_wording {r : Reason} (h : ∀ name ∈ r.names, isWord name) : r.wording.Plain := by
  cases r with
  | clash c => exact c.plain_wording
  | fault f => exact TypeFault.plain_wording h

theorem wording_ne (c : Clash) (f : TypeFault) : c.wording ≠ f.wording := by
  have hfirst : c.wording.first = "Cannot" := by cases c <;> rfl
  have hsecond : c.wording.second ≠ "requires" := by
    cases c <;> simp [Clash.wording, Clash.pairing]
  intro e
  rw [e] at hfirst hsecond
  -- Only where a construct is named does a fault leave the first word open.
  cases f with
  | condition construct t => exact hsecond rfl
  | _ => simp [TypeFault.wording] at hfirst

theorem eq_of_wording {r r' : Reason} (h : ∀ t ∈ r.types, t.errorFree)
    (e : r.wording = r'.wording) : r = r' := by
  cases r with
  | clash c => cases r' with
    | clash c' => exact congrArg clash (Clash.eq_of_wording h e)
    | fault f' => exact absurd e (wording_ne c f')
  | fault f => cases r' with
    | clash c' => exact absurd e.symm (wording_ne c' f)
    | fault f' => exact congrArg fault (TypeFault.eq_of_wording h e)

theorem eq_of_message {r r' : Reason} (h : ∀ t ∈ r.types, t.errorFree)
    (hn : ∀ name ∈ r.names, isWord name) (hn' : ∀ name ∈ r'.names, isWord name)
    (e : r.message = r'.message) : r = r' := by
  have e := congrArg String.toList e
  rw [toList_message, toList_message] at e
  exact eq_of_wording h (Wording.eq_of_chars (plain_wording hn) (plain_wording hn') e)

end Reason

namespace Symbol

def typeText : Option Ty → List Char
  | some t => ':' :: (t.text ++ [')'])
  | none => [')']

theorem toList_render (s : Symbol) :
    s.render.toList = "Symbol(".toList ++ (s.name.toList ++ typeText s.type?) := by
  unfold render
  cases s.type? with
  | none => simp [typeText, toString]
  | some t => simp [typeText, text, toString]

theorem append_typeText_ne {name name' : List Char} {t : Ty} (h : ':' ∉ name) :
    name ++ typeText none ≠ name' ++ typeText (some t) := by
  intro e
  have hcolon : ':' ∉ name ++ typeText none := by simp [typeText, h]
  rw [e] at hcolon
  simp [typeText] at hcolon

theorem eq_of_render {s s' : Symbol} (h : ∀ t ∈ s.type?, t.errorFree) (hs : isWord s.name)
    (hs' : isWord s'.name) (e : s.render = s'.render) :
    s.name = s'.name ∧ s.type? = s'.type? := by
  have hcolon : ':' ∉ s.name.toList := not_mem_of_isWord hs (by decide)
  have hcolon' : ':' ∉ s'.name.toList := not_mem_of_isWord hs' (by decide)
  have e := congrArg String.toList e
  rw [toList_render, toList_render, List.append_cancel_left_eq] at e
  cases ht : s.type? with
  | none => cases ht' : s'.type? with
    | none =>
      rw [ht, ht', List.append_cancel_right_eq] at e
      exact ⟨String.toList_inj.mp e, rfl⟩
    | some t' =>
      rw [ht, ht'] at e
      exact absurd e (append_typeText_ne hcolon)
  | some t => cases ht' : s'.type? with
    | none =>
      rw [ht, ht'] at e
      exact absurd e.symm (append_typeText_ne hcolon')
    | some t' =>
      rw [ht, ht'] at e
      obtain ⟨hname, htype⟩ := Text.append_cons_inj hcolon hcolon' e
      rw [((text_append_inj (h t ht)).mp htype).1]
      exact ⟨String.toList_inj.mp hname, rfl⟩

end Symbol

/-- A type without errors is told by its text, which is that of no other type. So the types that are
named in the message of a type error or with a symbol are told, too, where names are words. -/
theorem types_told :
    (∀ a b : Ty, a.errorFree → (a.render = b.render ↔ a = b)) ∧
    (∀ r r' : Reason, (∀ t ∈ r.types, t.errorFree) → (∀ name ∈ r.names ++ r'.names, isWord name) →
      (r.message = r'.message ↔ r = r')) ∧
    ∀ s s' : Symbol, (∀ t ∈ s.type?, t.errorFree) → isWord s.name → isWord s'.name →
      (s.render = s'.render ↔ s.name = s'.name ∧ s.type? = s'.type?) := by
  refine ⟨fun a b ha => ?_, fun r r' ht hn => ⟨fun e => ?_, congrArg Reason.message⟩,
    fun s s' ht hs hs' => ⟨Symbol.eq_of_render ht hs hs', ?_⟩⟩
  · rw [← text_inj ha, text, text, String.toList_inj]
  · obtain ⟨hn, hn'⟩ := List.forall_mem_append.mp hn
    exact Reason.eq_of_message ht hn hn' e
  · rintro ⟨hname, htype⟩
    rw [Symbol.render, Symbol.render, hname, htype]

theorem types_told_nested :
    (Ty.func [.func [.array 12 .int] .bool, .float] .void).render ≠
      (Ty.func [.func [.array 12 .int] (.func [] .bool)] .void).render ∧
    (Reason.clash (.sub .int (.func [] .bool))).message ≠
      (Reason.fault (.returned "get" .int (.func [] .bool))).message ∧
    Symbol.render ⟨0, "get", some (.func [.int] .void)⟩ ≠ Symbol.render ⟨0, "get", some .void⟩ := by
  obtain ⟨hty, hreason, hsymbol⟩ := types_told
  refine ⟨mt (hty _ _ (by decide)).mp (by decide),
    mt (hreason _ _ (by decide) (by decide)).mp (by simp),
    mt (hsymbol _ _ ?_ (by decide) (by decide)).mp (by simp)⟩
  rintro t ⟨⟩
  decide

-- Texts of errors can be alike, as a message may have brackets and commas in it.
example : (Ty.func [.error "x", .error "y"] .void).render =
    (Ty.func [.error "x), ErrorType(y"] .void).render := by decide

end Crux
