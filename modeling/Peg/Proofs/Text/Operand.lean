import Peg.Proofs.Grammar.Rendering
import Peg.Proofs.Text.CharClass
import Peg.Proofs.Text.Literal

/-!
What the text of an expression tells. An operand is written as its marks, then what they are
put on, then its quantifiers; the text does not tell in which order marks and quantifiers were
put on, and a part alone in a group is written like the part. But for this an expression can be
read back from its text, whatever stands behind it in a group.
-/

namespace Peg

/-! ## Layers -/

/-- What an expression may be put into. -/
inductive Layer where
  /-- A sequence or a choice of nothing else. -/
  | alone
  | star
  | plus
  | optional
  | ahead
  | notAhead
  | discard
  | label (name : String)
  | slice
  | concat
deriving DecidableEq

/-- A mark in front of an operand. -/
inductive Mark where
  | ahead
  | notAhead
  | discard
  | dollar
  | label (name : String)
deriving DecidableEq

namespace Mark

def text : Mark → List Char
  | ahead => ['&']
  | notAhead => ['!']
  | discard => ['-']
  | dollar => ['$']
  | label name => name.toList ++ [':']

end Mark

namespace Layer

/-- The marks that the layer puts in front. -/
def marks : Layer → List Mark
  | alone | star | plus | optional => []
  | ahead => [.ahead]
  | notAhead => [.notAhead]
  | discard => [.discard]
  | label name => [.label name]
  | slice => [.dollar]
  | concat => [.dollar, .dollar]

def isQuantifier : Layer → Bool
  | star | plus | optional => true
  | _ => false

/-- The sign of a quantifier. -/
def sign : Layer → List Char
  | star => ['*']
  | plus => ['+']
  | optional => ['?']
  | _ => []

/-- The expression is the other with the layer around it. -/
inductive Around : Layer → Expr → Expr → Prop
  | seq (e : Expr) : Around alone e (.seq [e])
  | choice (e : Expr) : Around alone e (.choice [e])
  | star (e : Expr) : Around star e (.star e)
  | plus (e : Expr) : Around plus e (.plus e)
  | optional (e : Expr) : Around optional e (.optional e)
  | ahead (e : Expr) : Around ahead e (.ahead e)
  | notAhead (e : Expr) : Around notAhead e (.notAhead e)
  | discard (e : Expr) : Around discard e (.discard e)
  | label (name : String) (e : Expr) : Around (label name) e (.label name e)
  | slice (e : Expr) : Around slice e (.slice e)
  | concat (e : Expr) : Around concat e (.concat e)

end Layer

/-- The marks of all layers, in the order in which they are written. -/
def marksOf (layers : List Layer) : List Mark :=
  layers.flatMap Layer.marks

/-- The quantifiers among the layers, from the outermost on. -/
def quantifiersOf (layers : List Layer) : List Layer :=
  layers.filter Layer.isQuantifier

namespace Expr

/-- What an expression is put into, from the outermost layer on. -/
def layers : Expr → List Layer
  | seq [e] | choice [e] => .alone :: e.layers
  | star e => .star :: e.layers
  | plus e => .plus :: e.layers
  | optional e => .optional :: e.layers
  | ahead e => .ahead :: e.layers
  | notAhead e => .notAhead :: e.layers
  | discard e => .discard :: e.layers
  | label name e => .label name :: e.layers
  | slice e => .slice :: e.layers
  | concat e => .concat :: e.layers
  | _ => []

/-- What is inside of all layers. -/
def core : Expr → Expr
  | seq [e] | choice [e] | star e | plus e | optional e | ahead e | notAhead e | discard e
  | label _ e | slice e | concat e => e.core
  | e => e

/-- Induction over the layers of an expression. -/
@[elab_as_elim]
theorem layers_induction {motive : Expr → Prop}
    (bare : ∀ e, e.layers = [] → e.core = e → motive e)
    (layer : ∀ l e' e, Layer.Around l e' e → motive e' → motive e) (e : Expr) : motive e := by
  induction e using parts_induction with
  | literal | charClass | anyChar | rule | action => exact bare _ rfl rfl
  | seq es ih =>
    match es with
    | [] | _ :: _ :: _ => exact bare _ rfl rfl
    | [e] => exact layer _ _ _ (.seq e) (ih e List.mem_cons_self)
  | choice es ih =>
    match es with
    | [] | _ :: _ :: _ => exact bare _ rfl rfl
    | [e] => exact layer _ _ _ (.choice e) (ih e List.mem_cons_self)
  | star e ih => exact layer _ _ _ (.star e) ih
  | plus e ih => exact layer _ _ _ (.plus e) ih
  | optional e ih => exact layer _ _ _ (.optional e) ih
  | ahead e ih => exact layer _ _ _ (.ahead e) ih
  | notAhead e ih => exact layer _ _ _ (.notAhead e) ih
  | discard e ih => exact layer _ _ _ (.discard e) ih
  | label name e ih => exact layer _ _ _ (.label name e) ih
  | slice e ih => exact layer _ _ _ (.slice e) ih
  | concat e ih => exact layer _ _ _ (.concat e) ih

end Expr

namespace Layer.Around

variable {l : Layer} {e e' : Expr}

theorem layers_eq (h : l.Around e' e) : e.layers = l :: e'.layers := by
  cases h <;> rfl

theorem core_eq (h : l.Around e' e) : e.core = e'.core := by
  cases h <;> rfl

theorem mem_children (h : l.Around e' e) : e' ∈ e.children := by
  cases h <;> exact List.mem_cons_self

end Layer.Around

namespace Expr

theorem layers_core (e : Expr) : e.core.layers = [] := by
  induction e using layers_induction with
  | bare e hlayers hcore => rwa [hcore]
  | layer l e' e h ih => rwa [h.core_eq]

/-- What holds of an expression and so of its parts holds of its core. -/
theorem core_of_part {P : Expr → Prop} (hpart : ∀ e part, P e → part ∈ e.children → P part)
    {e : Expr} (h : P e) : P e.core := by
  induction e using layers_induction with
  | bare e _ hcore => rwa [hcore]
  | layer l e' e haround ih =>
    rw [haround.core_eq]
    exact ih (hpart e e' h haround.mem_children)

end Expr

/-! ## The text of an operand -/

namespace Expr

/-- The text of an expression as an operand. -/
def operandText (e : Expr) : List Char :=
  (e.render true).toList

theorem operandText_of_around {l : Layer} {e e' : Expr} (h : l.Around e' e) :
    e.operandText = l.marks.flatMap Mark.text ++ e'.operandText ++ l.sign := by
  cases h <;>
    simp [operandText, render, renderAll, group, Layer.marks, Layer.sign, Mark.text]

theorem signs_cons (l : Layer) (layers : List Layer) :
    (quantifiersOf (l :: layers)).reverse.flatMap Layer.sign =
      (quantifiersOf layers).reverse.flatMap Layer.sign ++ l.sign := by
  cases l <;> simp [quantifiersOf, List.filter_cons, Layer.isQuantifier, Layer.sign]

/-- An operand is written as its marks, its core, and its quantifiers. -/
theorem operandText_eq (e : Expr) :
    e.operandText = (marksOf e.layers).flatMap Mark.text ++ (e.core.operandText ++
      (quantifiersOf e.layers).reverse.flatMap Layer.sign) := by
  induction e using layers_induction with
  | bare e hlayers hcore => simp [hlayers, hcore, marksOf, quantifiersOf]
  | layer l e' e h ih =>
    rw [operandText_of_around h, h.layers_eq, h.core_eq, signs_cons, ih]
    simp [marksOf]

end Expr

/-! ## Names -/

/-- A character of a name. -/
def isNameChar (c : Char) : Bool :=
  c.isAlphanum || c == '_' || 0x7F < c.toNat

def IsIdentifier (name : String) : Prop :=
  name ≠ "" ∧ name.toList.all isNameChar = true

instance (name : String) : Decidable (IsIdentifier name) :=
  inferInstanceAs (Decidable (_ ∧ _))

theorem IsIdentifier.isNameChar {name : String} (h : IsIdentifier name) :
    ∀ c ∈ name.toList, isNameChar c = true :=
  List.all_eq_true.mp h.2

theorem IsIdentifier.toList_eq {name : String} (h : IsIdentifier name) :
    ∃ c rest, name.toList = c :: rest ∧ Peg.isNameChar c = true ∧
      ∀ d ∈ rest, Peg.isNameChar d = true := by
  cases hchars : name.toList with
  | nil => exact absurd (String.toList_eq_nil_iff.mp hchars) h.1
  | cons c rest =>
    obtain ⟨hc, hrest⟩ := List.forall_mem_cons.mp (hchars ▸ h.isNameChar)
    exact ⟨c, rest, rfl, hc, hrest⟩

namespace Expr

/-- Expressions that are made of what can be read: they have no actions, all names in them
are identifiers, and no sequence or choice is of nothing. -/
structure Readable (e : Expr) : Prop where
  action_free : ∀ body a, ¬ (action body a).Occurs e
  label_names : ∀ name body, (label name body).Occurs e → IsIdentifier name
  rule_names : ∀ ref, (rule ref).Occurs e → IsIdentifier ref.name
  seq_nonempty : ¬ (seq []).Occurs e
  choice_nonempty : ¬ (choice []).Occurs e

/-- What a node has to be where expressions can be read. -/
def isReadableNode : Expr → Bool
  | action _ _ | seq [] | choice [] => false
  | label name _ => IsIdentifier name
  | rule ref => IsIdentifier ref.name
  | _ => true

theorem readable_iff {e : Expr} : e.Readable ↔ ∀ d ∈ e.postorder, d.isReadableNode = true := by
  simp only [mem_postorder_iff_occurs]
  constructor
  · intro h d hd
    unfold isReadableNode
    split
    · exact absurd hd (h.action_free _ _)
    · exact absurd hd h.seq_nonempty
    · exact absurd hd h.choice_nonempty
    · exact decide_eq_true (h.label_names _ _ hd)
    · exact decide_eq_true (h.rule_names _ hd)
    · rfl
  · intro h
    exact {
      action_free := fun body a ha => Bool.noConfusion (h _ ha)
      label_names := fun name body hl => of_decide_eq_true (h _ hl)
      rule_names := fun ref hr => of_decide_eq_true (h _ hr)
      seq_nonempty := fun hs => Bool.noConfusion (h _ hs)
      choice_nonempty := fun hc => Bool.noConfusion (h _ hc) }

instance (e : Expr) : Decidable e.Readable :=
  decidable_of_iff _ readable_iff.symm

theorem Readable.part {e part : Expr} (h : e.Readable) (hpart : part ∈ e.children) :
    part.Readable where
  action_free body a ha := h.action_free body a (.inside hpart ha)
  label_names name body hl := h.label_names name body (.inside hpart hl)
  rule_names ref hr := h.rule_names ref (.inside hpart hr)
  seq_nonempty hs := h.seq_nonempty (.inside hpart hs)
  choice_nonempty hc := h.choice_nonempty (.inside hpart hc)

theorem Readable.core {e : Expr} (h : e.Readable) : e.core.Readable :=
  core_of_part (fun _ _ h hpart => h.part hpart) h

/-- What can be inside of all layers. -/
inductive Kernel : Expr → Prop
  | literal (l : Literal) : Kernel (.literal l)
  | charClass (c : CharClass) : Kernel (.charClass c)
  | anyChar : Kernel .anyChar
  | rule (ref : RuleRef) (hname : IsIdentifier ref.name) : Kernel (.rule ref)
  | seq (e e' : Expr) (es : List Expr) : Kernel (.seq (e :: e' :: es))
  | choice (e e' : Expr) (es : List Expr) : Kernel (.choice (e :: e' :: es))

theorem Readable.kernel {e : Expr} (h : e.Readable) : e.core.Kernel := by
  have hreadable := h.core
  have hlayers := e.layers_core
  generalize e.core = core at hreadable hlayers
  cases core with
  | literal l => exact .literal l
  | charClass c => exact .charClass c
  | anyChar => exact .anyChar
  | rule ref => exact .rule ref (hreadable.rule_names ref .self)
  | action body a => exact absurd .self (hreadable.action_free body a)
  | seq es =>
    match es with
    | [] => exact absurd .self hreadable.seq_nonempty
    | [e] => cases hlayers
    | e :: e' :: es => exact .seq e e' es
  | choice es =>
    match es with
    | [] => exact absurd .self hreadable.choice_nonempty
    | [e] => cases hlayers
    | e :: e' :: es => exact .choice e e' es
  | star | plus | optional | ahead | notAhead | discard | label | slice | concat =>
    cases hlayers

end Expr

/-- The name that the mark shows, if any, is an identifier. -/
def Mark.Readable (mark : Mark) : Prop :=
  ∀ name, mark = .label name → IsIdentifier name

theorem Expr.Readable.mark {e : Expr} (h : e.Readable) {mark : Mark}
    (hmark : mark ∈ marksOf e.layers) : mark.Readable := by
  rintro name rfl
  induction e using layers_induction with
  | bare e hlayers _ =>
    rw [hlayers] at hmark
    cases hmark
  | layer l e' e haround ih =>
    rw [haround.layers_eq, marksOf, List.flatMap_cons, List.mem_append] at hmark
    rcases hmark with hhere | hinner
    · cases haround with
      | label name' e' =>
        obtain rfl := Mark.label.inj (List.mem_singleton.mp hhere)
        exact h.label_names name e' .self
      | _ => simp [Layer.marks] at hhere
    · exact ih (h.part haround.mem_children) hinner

/-! ## Reading marks and quantifiers -/

/-- Reads a mark in front of an operand. -/
def readMark? : List Char → Option (Mark × List Char)
  | '&' :: rest => some (.ahead, rest)
  | '!' :: rest => some (.notAhead, rest)
  | '-' :: rest => some (.discard, rest)
  | '$' :: rest => some (.dollar, rest)
  | text =>
    match text.dropWhile isNameChar with
    | ':' :: rest => some (.label (String.ofList (text.takeWhile isNameChar)), rest)
    | _ => none

theorem readMark?_of_nameChar {c : Char} (hc : isNameChar c = true) (rest : List Char) :
    readMark? (c :: rest) =
      match rest.dropWhile isNameChar with
      | ':' :: after =>
        some (.label (String.ofList (c :: rest.takeWhile isNameChar)), after)
      | _ => none := by
  have hother (d : Char) (hd : isNameChar d = false) : c ≠ d :=
    fun heq => Bool.false_ne_true (hd.symm.trans (heq ▸ hc))
  unfold readMark?
  split
  · next heq => exact absurd (List.cons.inj heq).1 (hother '&' (by decide))
  · next heq => exact absurd (List.cons.inj heq).1 (hother '!' (by decide))
  · next heq => exact absurd (List.cons.inj heq).1 (hother '-' (by decide))
  · next heq => exact absurd (List.cons.inj heq).1 (hother '$' (by decide))
  · rw [List.dropWhile_cons_of_pos hc, List.takeWhile_cons_of_pos hc]

theorem readMark?_text {mark : Mark} (hmark : mark.Readable) (rest : List Char) :
    readMark? (mark.text ++ rest) = some (mark, rest) := by
  cases mark with
  | label name =>
    have hname := hmark name rfl
    obtain ⟨c, chars, hchars, hc, hall⟩ := hname.toList_eq
    have hname : String.ofList (c :: chars) = name := by rw [← hchars, String.ofList_toList]
    rw [Mark.text, hchars, List.append_assoc, List.cons_append, readMark?_of_nameChar hc,
      List.dropWhile_append_of_pos hall, List.takeWhile_append_of_pos hall, List.singleton_append,
      List.dropWhile_cons_of_neg (by decide), List.takeWhile_cons_of_neg (by decide),
      List.append_nil, hname]
    rfl
  | _ => rfl

/-- What can stand behind what an operand is made of: a quantifier, a blank, or nothing. -/
def EndsCore (rest : List Char) : Prop :=
  ∀ c ∈ rest.head?, c ∈ ['*', '+', '?', ' ']

/-- What can stand behind an operand: a blank or nothing. -/
def EndsOperand (rest : List Char) : Prop :=
  ∀ c ∈ rest.head?, c = ' '

theorem EndsCore.not_nameChar {rest : List Char} (h : EndsCore rest) :
    ∀ c ∈ rest.head?, isNameChar c = false := by
  intro c hc
  have hmem := h c hc
  simp only [List.mem_cons, List.not_mem_nil, or_false] at hmem
  rcases hmem with rfl | rfl | rfl | rfl <;> rfl

/-- Reads the sign of a quantifier. -/
def readQuantifier? : List Char → Option (Layer × List Char)
  | '*' :: rest => some (.star, rest)
  | '+' :: rest => some (.plus, rest)
  | '?' :: rest => some (.optional, rest)
  | _ => none

theorem readQuantifier?_sign {l : Layer} (h : l.isQuantifier = true) (rest : List Char) :
    readQuantifier? (l.sign ++ rest) = some (l, rest) := by
  cases l with
  | star | plus | optional => rfl
  | _ => cases h

theorem EndsOperand.readQuantifier? {rest : List Char} (h : EndsOperand rest) :
    readQuantifier? rest = none := by
  cases rest with
  | nil => rfl
  | cons c rest =>
    obtain rfl := h c rfl
    rfl

theorem isQuantifier_of_mem_signs (layers : List Layer) :
    ∀ l ∈ (quantifiersOf layers).reverse, l.isQuantifier = true :=
  fun _ hl => (List.mem_filter.mp (List.mem_reverse.mp hl)).2

theorem EndsOperand.endsCore {rest : List Char} (h : EndsOperand rest) (layers : List Layer) :
    EndsCore ((quantifiersOf layers).reverse.flatMap Layer.sign ++ rest) := by
  have hall := isQuantifier_of_mem_signs layers
  cases hsigns : (quantifiersOf layers).reverse with
  | nil =>
    intro c hc
    rw [h c hc]
    decide
  | cons l signs =>
    have hl := hall l (hsigns ▸ List.mem_cons_self)
    cases l with
    | star | plus | optional => simp [EndsCore, Layer.sign]
    | _ => cases hl

/-! ## Reading an operand -/

/-- The character that something other than a name begins with. -/
def opening? (c : Char) : Option Char :=
  if isNameChar c then none else some c

theorem eq_of_opening? {c d : Char} (h : opening? c = some d) : c = d := by
  unfold opening? at h
  split at h
  · cases h
  · exact Option.some.inj h

namespace Expr

/-- The character that the text of a kernel begins with, if that is not a name. -/
def opening : Expr → Option Char
  | literal _ => some '"'
  | charClass _ => some '['
  | anyChar => some '.'
  | seq _ | choice _ => some '('
  | _ => none

/-- The parts of a group but the first. A choice has slashes between them. -/
def furtherParts (slash : List Char) (es : List Expr) : List Char :=
  es.flatMap fun e => ' ' :: (slash ++ e.operandText)

theorem furtherParts_cons_append (slash : List Char) (e : Expr) (es : List Expr)
    (rest : List Char) : furtherParts slash (e :: es) ++ rest =
      ' ' :: (slash ++ (e.operandText ++ (furtherParts slash es ++ rest))) := by
  simp [furtherParts]

theorem operandText_group {separator : String} {slash : List Char}
    (hseparator : separator.toList = ' ' :: slash) (e e' : Expr) (es : List Expr) :
    (group true (String.intercalate separator (renderAll (e :: e' :: es)))).toList =
      '(' :: ' ' :: (e.operandText ++ (furtherParts slash (e' :: es) ++ [' ', ')'])) := by
  rw [renderAll_eq_map, List.map_cons, intercalate_cons]
  simp [group, furtherParts, operandText, String.toList_join, List.flatMap_map, hseparator]

theorem operandText_seq (e e' : Expr) (es : List Expr) :
    (seq (e :: e' :: es)).operandText =
      '(' :: ' ' :: (e.operandText ++ (furtherParts [] (e' :: es) ++ [' ', ')'])) := by
  rw [← operandText_group (show " ".toList = [' '] from rfl)]
  rfl

theorem operandText_choice (e e' : Expr) (es : List Expr) :
    (choice (e :: e' :: es)).operandText =
      '(' :: ' ' :: (e.operandText ++ (furtherParts ['/', ' '] (e' :: es) ++ [' ', ')'])) := by
  rw [← operandText_group (show " / ".toList = [' ', '/', ' '] from rfl)]
  rfl

/-- By its first character it can be told what a kernel is. -/
theorem Kernel.operandText_eq {e : Expr} (h : e.Kernel) :
    ∃ c rest, e.operandText = c :: rest ∧ opening? c = e.opening := by
  cases h with
  | literal l =>
    have htext := l.toList_render_append []
    rw [List.append_nil] at htext
    exact ⟨'"', _, htext, rfl⟩
  | charClass c => exact ⟨'[', c.body ++ [']'], String.toList_ofList, rfl⟩
  | anyChar => exact ⟨'.', [], rfl, rfl⟩
  | rule ref hname =>
    obtain ⟨c, rest, hchars, hc, -⟩ := hname.toList_eq
    exact ⟨c, rest, hchars, if_pos hc⟩
  | seq e e' es => exact ⟨'(', _, operandText_seq e e' es, rfl⟩
  | choice e e' es => exact ⟨'(', _, operandText_choice e e' es, rfl⟩


/-- An operand does not begin with what closes or divides a group. -/
theorem Readable.operandText_eq_cons {e : Expr} (h : e.Readable) :
    ∃ c rest, e.operandText = c :: rest ∧ c ≠ ')' ∧ c ≠ '/' := by
  have hname (c : Char) (hc : isNameChar c = true) : c ≠ ')' ∧ c ≠ '/' := by
    constructor <;> rintro rfl <;> revert hc <;> decide
  rw [Expr.operandText_eq]
  cases hmarks : marksOf e.layers with
  | nil =>
    obtain ⟨c, rest, htext, hopening⟩ := h.kernel.operandText_eq
    refine ⟨c, _, congrArg (· ++ _) htext, ?_⟩
    by_cases hc : isNameChar c = true
    · exact hname c hc
    · rw [opening?, if_neg hc] at hopening
      have hkernel := h.kernel
      generalize e.core = core at hkernel hopening
      cases hkernel <;> cases hopening <;> exact ⟨by decide, by decide⟩
  | cons mark marks =>
    have hmark : mark ∈ marksOf e.layers := hmarks ▸ List.mem_cons_self
    cases mark with
    | label name =>
      obtain ⟨c, rest, htext, hc, -⟩ := (h.mark hmark name rfl).toList_eq
      rw [List.flatMap_cons, Mark.text, htext]
      exact ⟨c, _, rfl, hname c hc⟩
    | ahead | notAhead | discard | dollar => exact ⟨_, _, rfl, by decide, by decide⟩

/-- Two kernels are the same but for their parts. -/
inductive SameKind : Expr → Expr → Prop
  | literal (l : Literal) : SameKind (.literal l) (.literal l)
  | charClass {c c' : CharClass} (h : c.contains = c'.contains) :
    SameKind (.charClass c) (.charClass c')
  | anyChar : SameKind .anyChar .anyChar
  | rule {ref ref' : RuleRef} (h : ref.name = ref'.name) : SameKind (.rule ref) (.rule ref')
  | seq (es es' : List Expr) : SameKind (.seq es) (.seq es')
  | choice (es es' : List Expr) : SameKind (.choice es) (.choice es')

/-- What two expressions have in common when their texts are the same: the marks and the
quantifiers, not in which order the ones were put on before the others, and what is inside. -/
inductive Alike : Expr → Expr → Prop
  | intro {e f : Expr} (hmarks : marksOf e.layers = marksOf f.layers)
    (hquantifiers : quantifiersOf e.layers = quantifiersOf f.layers)
    (hkind : SameKind e.core f.core)
    (hparts : List.Forall₂ Alike e.core.children f.core.children) : Alike e f

/-- The expression can be told from a text that begins with it, up to what is alike, and so
can where it ends. -/
def Told (e : Expr) : Prop :=
  ∀ f : Expr, f.Readable → ∀ rest rest', EndsOperand rest → EndsOperand rest' →
    e.operandText ++ rest = f.operandText ++ rest' → Alike e f ∧ rest = rest'

theorem endsOperand_furtherParts (slash : List Char) (es : List Expr) (rest : List Char) :
    EndsOperand (furtherParts slash es ++ ' ' :: ')' :: rest) := by
  cases es <;> simp [EndsOperand, furtherParts]

/-- What comes behind a blank in a group is not its end, if there is a part. -/
theorem Readable.slash_append_ne {f : Expr} (hf : f.Readable) {slash : List Char}
    (hslash : slash = [] ∨ slash = ['/', ' ']) (rest rest' : List Char) :
    slash ++ (f.operandText ++ rest) ≠ ')' :: rest' := by
  obtain ⟨c, text, htext, hc, -⟩ := hf.operandText_eq_cons
  rcases hslash with rfl | rfl
  · simp [htext, hc]
  · simp

theorem cancel_furtherParts {slash : List Char} (hslash : slash = [] ∨ slash = ['/', ' '])
    {es fs : List Expr} (hes : ∀ e ∈ es, e.Readable) (hfs : ∀ f ∈ fs, f.Readable)
    (htold : ∀ e ∈ es, e.Told) {rest rest' : List Char}
    (heq : furtherParts slash es ++ ' ' :: ')' :: rest =
      furtherParts slash fs ++ ' ' :: ')' :: rest') :
    List.Forall₂ Alike es fs ∧ rest = rest' := by
  induction es generalizing fs with
  | nil =>
    cases fs with
    | nil => exact ⟨.nil, (List.cons.inj (List.cons.inj heq).2).2⟩
    | cons f fs =>
      rw [furtherParts_cons_append] at heq
      have hf := hfs f List.mem_cons_self
      exact absurd (List.cons.inj heq).2.symm (hf.slash_append_ne hslash _ _)
  | cons e es ih =>
    rw [furtherParts_cons_append] at heq
    cases fs with
    | nil =>
      have he := hes e List.mem_cons_self
      exact absurd (List.cons.inj heq).2 (he.slash_append_ne hslash _ _)
    | cons f fs =>
      rw [furtherParts_cons_append] at heq
      obtain ⟨hhead, htail⟩ := htold e List.mem_cons_self f (hfs f List.mem_cons_self) _ _
        (endsOperand_furtherParts slash es rest) (endsOperand_furtherParts slash fs rest')
        (List.append_cancel_left (List.cons.inj heq).2)
      obtain ⟨hparts, hrest⟩ := ih (fun e he => hes e (List.mem_cons_of_mem _ he))
        (fun f hf => hfs f (List.mem_cons_of_mem _ hf))
        (fun e he => htold e (List.mem_cons_of_mem _ he)) htail
      exact ⟨.cons hhead hparts, hrest⟩

/-- A sequence does not look like a choice. -/
theorem furtherParts_ne {e f : Expr} (he : e.Readable) (es fs : List Expr)
    (rest rest' : List Char) :
    furtherParts [] (e :: es) ++ rest ≠ furtherParts ['/', ' '] (f :: fs) ++ rest' := by
  intro heq
  obtain ⟨c, text, htext, -, hc⟩ := he.operandText_eq_cons
  rw [furtherParts_cons_append, furtherParts_cons_append, htext] at heq
  exact hc (List.cons.inj (List.cons.inj heq).2).1

section Kernels

variable {e f : Expr} {rest rest' : List Char}

theorem cancel_group {slash slash' : List Char} {e e' f f' : Expr} {es fs : List Expr}
    (hparts : ∀ part ∈ e :: e' :: es, part.Told) (hf : f.Readable)
    (heq : '(' :: ' ' :: (e.operandText ++ (furtherParts slash (e' :: es) ++ [' ', ')'])) ++ rest =
      '(' :: ' ' :: (f.operandText ++ (furtherParts slash' (f' :: fs) ++ [' ', ')'])) ++ rest') :
    Alike e f ∧ furtherParts slash (e' :: es) ++ ' ' :: ')' :: rest =
      furtherParts slash' (f' :: fs) ++ ' ' :: ')' :: rest' := by
  simp only [List.cons_append, List.nil_append, List.append_assoc, List.cons.injEq,
    true_and] at heq
  exact hparts e List.mem_cons_self f hf _ _ (endsOperand_furtherParts _ _ _)
    (endsOperand_furtherParts _ _ _) heq

/-- A kernel can be told from a text that begins with it, if its parts can. -/
theorem cancel_kernel (he : e.Kernel) (hf : f.Kernel) (hre : e.Readable) (hrf : f.Readable)
    (hparts : ∀ part ∈ e.children, part.Told) (hrest : EndsCore rest) (hrest' : EndsCore rest')
    (heq : e.operandText ++ rest = f.operandText ++ rest') :
    SameKind e f ∧ List.Forall₂ Alike e.children f.children ∧ rest = rest' := by
  have hopening : e.opening = f.opening := by
    obtain ⟨c, text, htext, hc⟩ := he.operandText_eq
    obtain ⟨c', text', htext', hc'⟩ := hf.operandText_eq
    rw [htext, htext'] at heq
    rw [← hc, ← hc', (List.cons.inj heq).1]
  cases he with
  | literal l =>
    cases hf with
    | literal l' =>
      have hmark (rest : List Char) (h : EndsCore rest) : ∀ c ∈ rest.head?, c ≠ 'i' := by
        rintro c hc rfl
        exact absurd (h 'i' hc) (by decide)
      obtain ⟨rfl, hrests⟩ := Literal.cancel_render (hmark rest hrest) (hmark rest' hrest') heq
      exact ⟨.literal l, .nil, hrests⟩
    | _ => exact absurd hopening (by simp [opening])
  | charClass c =>
    cases hf with
    | charClass c' =>
      obtain ⟨hcontains, hrests⟩ := CharClass.cancel_render heq
      exact ⟨.charClass hcontains, .nil, hrests⟩
    | _ => exact absurd hopening (by simp [opening])
  | anyChar =>
    cases hf with
    | anyChar => exact ⟨.anyChar, .nil, (List.cons.inj heq).2⟩
    | _ => exact absurd hopening (by simp [opening])
  | rule ref hname =>
    cases hf with
    | rule ref' hname' =>
      obtain ⟨hchars, hrests⟩ := Text.cancel_chars isNameChar hname.isNameChar
        hname'.isNameChar hrest.not_nameChar hrest'.not_nameChar heq
      exact ⟨.rule (String.toList_inj.mp hchars), .nil, hrests⟩
    | _ => exact absurd hopening (by simp [opening])
  | seq e e' es =>
    rw [operandText_seq] at heq
    cases hf with
    | seq f f' fs =>
      rw [operandText_seq] at heq
      obtain ⟨hhead, htail⟩ := cancel_group hparts (hrf.part List.mem_cons_self) heq
      obtain ⟨hfurther, hrests⟩ := cancel_furtherParts (Or.inl rfl)
        (fun e he => hre.part (List.mem_cons_of_mem _ he))
        (fun f hf => hrf.part (List.mem_cons_of_mem _ hf))
        (fun e he => hparts e (List.mem_cons_of_mem _ he)) htail
      exact ⟨.seq _ _, .cons hhead hfurther, hrests⟩
    | choice f f' fs =>
      rw [operandText_choice] at heq
      obtain ⟨-, htail⟩ := cancel_group hparts (hrf.part List.mem_cons_self) heq
      have he' := hre.part (List.mem_cons_of_mem _ List.mem_cons_self)
      exact absurd htail (furtherParts_ne he' _ _ _ _)
    | _ => exact absurd hopening (by simp [opening])
  | choice e e' es =>
    rw [operandText_choice] at heq
    cases hf with
    | choice f f' fs =>
      rw [operandText_choice] at heq
      obtain ⟨hhead, htail⟩ := cancel_group hparts (hrf.part List.mem_cons_self) heq
      obtain ⟨hfurther, hrests⟩ := cancel_furtherParts (Or.inr rfl)
        (fun e he => hre.part (List.mem_cons_of_mem _ he))
        (fun f hf => hrf.part (List.mem_cons_of_mem _ hf))
        (fun e he => hparts e (List.mem_cons_of_mem _ he)) htail
      exact ⟨.choice _ _, .cons hhead hfurther, hrests⟩
    | seq f f' fs =>
      rw [operandText_seq] at heq
      obtain ⟨-, htail⟩ := cancel_group hparts (hrf.part List.mem_cons_self) heq
      have hf' := hrf.part (List.mem_cons_of_mem _ List.mem_cons_self)
      exact absurd htail.symm (furtherParts_ne hf' _ _ _ _)
    | _ => exact absurd hopening (by simp [opening])

end Kernels

/-- Induction over an expression from what is inside of its layers. -/
theorem core_induction {motive : Expr → Prop}
    (step : ∀ e, (∀ part ∈ e.core.children, motive part) → motive e) (e : Expr) : motive e := by
  suffices h : motive e ∧ ∀ part ∈ e.core.children, motive part from h.1
  induction e using children_induction with
  | step e ih =>
    have hcore : ∀ part ∈ e.core.children, motive part := by
      cases e using layers_induction with
      | bare e _ hcore =>
        rw [hcore]
        exact fun part hpart => (ih part hpart).1
      | layer l e' e h _ =>
        rw [h.core_eq]
        exact (ih e' h.mem_children).2
    exact ⟨step e hcore, hcore⟩

/-- The marks end where a kernel begins. -/
theorem Kernel.readMark?_eq_none {e : Expr} (h : e.Kernel) {rest : List Char}
    (hrest : EndsCore rest) : readMark? (e.operandText ++ rest) = none := by
  obtain ⟨c, text, htext, hopening⟩ := h.operandText_eq
  cases h with
  | rule ref hname =>
    have hstop : rest.dropWhile isNameChar = rest := by
      cases rest with
      | nil => rfl
      | cons d rest => exact List.dropWhile_cons_of_neg (by simp [hrest.not_nameChar d rfl])
    obtain ⟨c, chars, hchars, hc, hall⟩ := hname.toList_eq
    change readMark? (ref.name.toList ++ rest) = none
    rw [hchars, List.cons_append, readMark?_of_nameChar hc, List.dropWhile_append_of_pos hall,
      hstop]
    split
    · exact absurd (hrest ':' rfl) (by decide)
    · rfl
  | literal | charClass | anyChar | seq | choice =>
    obtain rfl := eq_of_opening? hopening
    rw [htext]
    rfl

theorem Readable.told {e : Expr} (he : e.Readable) : e.Told := by
  induction e using core_induction with
  | step e ih =>
    intro f hf rest rest' hrest hrest' heq
    have hcore := hrest.endsCore e.layers
    have hcore' := hrest'.endsCore f.layers
    rw [operandText_eq e, operandText_eq f, List.append_assoc, List.append_assoc,
      List.append_assoc, List.append_assoc] at heq
    obtain ⟨hmarks, heq⟩ := Text.cancel_pieces
      Mark.Readable (fun mark hmark rest => readMark?_text hmark rest) (fun mark => he.mark)
      (fun mark => hf.mark)
      (he.kernel.readMark?_eq_none hcore) (hf.kernel.readMark?_eq_none hcore') heq
    have hparts : ∀ part ∈ e.core.children, part.Told :=
      fun part hpart => ih part hpart (he.core.part hpart)
    obtain ⟨hkind, hparts, heq⟩ :=
      cancel_kernel he.kernel hf.kernel he.core hf.core hparts hcore hcore' heq
    obtain ⟨hquantifiers, heq⟩ := Text.cancel_pieces (Layer.isQuantifier · = true)
      (fun l hl rest => readQuantifier?_sign hl rest) (isQuantifier_of_mem_signs _)
      (isQuantifier_of_mem_signs _) hrest.readQuantifier? hrest'.readQuantifier? heq
    exact ⟨⟨hmarks, List.reverse_injective hquantifiers, hkind, hparts⟩, heq⟩

/-- A group has a first part, and there is more behind it. -/
theorem Readable.exists_first_part {e : Expr} (h : e.Readable) (hgroup : e.isGroup = true) :
    ∃ part ∈ e.children, ∃ rest, (e.render false).toList = part.operandText ++ ' ' :: rest := by
  have hwrapped : e.operandText = '(' :: ' ' :: ((e.render false).toList ++ [' ', ')']) := by
    rw [operandText, e.render_true, hgroup, group, if_pos rfl]
    simp
  have hfirst (part : Expr) (slash : List Char) (next : Expr) (es : List Expr)
      (htext : e.operandText =
        '(' :: ' ' :: (part.operandText ++ (furtherParts slash (next :: es) ++ [' ', ')']))) :
      ∃ rest, (e.render false).toList = part.operandText ++ ' ' :: rest := by
    rw [hwrapped, ← List.append_assoc] at htext
    refine ⟨slash ++ (next.operandText ++ furtherParts slash es), ?_⟩
    have hcancel := List.append_cancel_right (List.cons.inj (List.cons.inj htext).2).2
    simpa [furtherParts] using hcancel
  cases e with
  | seq es =>
    rcases es with _ | ⟨e, _ | ⟨e', es⟩⟩
    · cases hgroup
    · cases hgroup
    · exact ⟨e, List.mem_cons_self, hfirst e _ e' es (operandText_seq e e' es)⟩
  | choice es =>
    rcases es with _ | ⟨e, _ | ⟨e', es⟩⟩
    · cases hgroup
    · cases hgroup
    · exact ⟨e, List.mem_cons_self, hfirst e _ e' es (operandText_choice e e' es)⟩
  | action body a => exact absurd .self (h.action_free body a)
  | _ => cases hgroup

theorem operandText_of_not_isGroup {e : Expr} (h : e.isGroup = false) :
    e.operandText = (e.render false).toList := by
  rw [operandText, e.render_true, h, group, if_neg Bool.false_ne_true]

/-- A group is not written like what is none. -/
theorem Readable.render_false_ne {e f : Expr} (he : e.Readable) (hf : f.Readable)
    (hgroup : e.isGroup = true) (hsingle : f.isGroup = false) :
    e.render false ≠ f.render false := by
  intro heq
  obtain ⟨part, hpart, rest, htext⟩ := he.exists_first_part hgroup
  rw [heq, ← operandText_of_not_isGroup hsingle, ← List.append_nil f.operandText] at htext
  have hrest := ((he.part hpart).told f hf _ [] (by simp [EndsOperand]) (by simp [EndsOperand])
    htext.symm).2
  cases hrest

/-- Expressions that are written in the same way are alike. -/
theorem Readable.alike {e f : Expr} (he : e.Readable) (hf : f.Readable)
    (heq : e.render false = f.render false) : Alike e f := by
  have hgroups : e.isGroup = f.isGroup := by
    cases hgroup : e.isGroup <;> cases hgroup' : f.isGroup
    · rfl
    · exact absurd heq.symm (hf.render_false_ne he hgroup' hgroup)
    · exact absurd heq (he.render_false_ne hf hgroup hgroup')
    · rfl
  have htexts : e.operandText ++ [] = f.operandText ++ [] := by
    rw [operandText, operandText, e.render_true, f.render_true, heq, hgroups]
  exact (he.told f hf [] [] (by simp [EndsOperand]) (by simp [EndsOperand]) htexts).1

end Expr

end Peg
