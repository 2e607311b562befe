import OpGraph.Graph.Listing
import OpGraph.Proofs.Numerals
import OpGraph.Proofs.Reach

/-!
# A listing says what it lists

Names are written into a listing as they are, and a name may hold anything: quotes, brackets,
spaces, or something that looks like the end of another line. Only a line break would not be
told from the end of a line. Without line breaks in names, two graphs with the same listing have
the same nodes below their roots, in the same order and with the same inputs and types
(`Graph.listing_determines`).

A line is read from both ends. Its front is a number up to the first closing parenthesis, which
cannot be part of a number. Its back is a value type after the last space, a data type after the
last space before that, and a list of inputs after the last opening bracket, and none of these
holds the character at which it is cut off. What is left in between is the name, whatever
it is.

The first characters of a name tell what kind of node it belongs to, and the rest of it tells
the literal, the operator or the variable (`NodeKind.ofName`). Only doubles are left out: nothing
is said here about the digits of a double.
-/

namespace OpGraph

/-! ## Cutting a text at a character -/

section Cuts

variable {α : Type} {a : α} {xs ys us vs : List α}

theorem cut_at_first (hx : a ∉ xs) (hy : a ∉ ys) (h : xs ++ a :: us = ys ++ a :: vs) :
    xs = ys ∧ us = vs := by
  rcases List.append_eq_append_iff.1 h with ⟨mid, rfl, hmid⟩ | ⟨mid, rfl, hmid⟩
  · cases mid with
    | nil => exact ⟨by simp, (List.cons.inj hmid).2⟩
    | cons b mid => exact absurd (List.cons.inj hmid).1 (by rintro rfl; simp at hy)
  · cases mid with
    | nil => exact ⟨by simp, (List.cons.inj hmid).2.symm⟩
    | cons b mid => exact absurd (List.cons.inj hmid).1 (by rintro rfl; simp at hx)

theorem cut_at_last (hu : a ∉ us) (hv : a ∉ vs) (h : xs ++ a :: us = ys ++ a :: vs) :
    xs = ys ∧ us = vs := by
  have hback := congrArg List.reverse h
  simp only [List.reverse_append, List.reverse_cons, List.append_assoc, List.singleton_append]
    at hback
  obtain ⟨hus, hxs⟩ := cut_at_first (by simpa using hu) (by simpa using hv) hback
  exact ⟨List.reverse_injective hxs, List.reverse_injective hus⟩

theorem not_mem_of_class {p : α → Bool} (hclass : ∀ b ∈ xs, p b = true) (ha : p a = false) :
    a ∉ xs := by
  intro h
  rw [hclass a h] at ha
  cases ha

end Cuts

/-! ## Numbers in a line -/

namespace Decimal

theorem not_mem_toDigits {n : Nat} {c : Char} (hc : c.isDigit = false) :
    c ∉ Nat.toDigits 10 n :=
  not_mem_of_class (fun _ => isDigit_of_mem_toDigits) hc

theorem toDigits_injective {m n : Nat} (h : Nat.toDigits 10 m = Nat.toDigits 10 n) : m = n := by
  have hread := congrArg readDigits h
  rw [readDigits_toDigits, readDigits_toDigits] at hread
  exact Option.some.inj hread

/-- The numbers of a list with commas between them. -/
def commaList (ids : List Nat) : List Char := [','].intercalate (ids.map (Nat.toDigits 10))

theorem not_mem_commaList {ids : List Nat} {c : Char} (hcomma : c ≠ ',') (hc : c.isDigit = false) :
    c ∉ commaList ids := by
  unfold commaList
  induction ids with
  | nil => simp
  | cons i ids ih =>
      cases ids with
      | nil => simpa using not_mem_toDigits hc
      | cons j ids =>
          rw [List.map_cons, List.map_cons, List.intercalate_cons_cons, List.mem_append,
            List.mem_append, List.mem_singleton]
          rintro ((hi | hseparator) | hback)
          · exact not_mem_toDigits hc hi
          · exact hcomma hseparator
          · exact ih hback

/-- Cutting at the commas gives the numbers back, if there are any. -/
theorem splitOn_commaList {ids : List Nat} (hne : ids ≠ []) :
    (commaList ids).splitOn ',' = ids.map (Nat.toDigits 10) := by
  refine List.splitOn_intercalate ',' (fun cs hcs => ?_) (by simpa using hne)
  obtain ⟨i, -, rfl⟩ := List.mem_map.1 hcs
  exact not_mem_toDigits (by decide)

theorem commaList_ne_nil {ids : List Nat} (hne : ids ≠ []) : commaList ids ≠ [] := by
  intro hnil
  have hsplit := splitOn_commaList hne
  rw [hnil] at hsplit
  cases ids with
  | nil => exact hne rfl
  | cons i ids => exact Nat.toDigits_ne_nil (List.cons.inj hsplit).1.symm

theorem commaList_injective {is js : List Nat} (h : commaList is = commaList js) : is = js := by
  by_cases hi : is = []
  · subst hi
    by_cases hj : js = []
    · exact hj.symm
    · exact absurd h.symm (commaList_ne_nil hj)
  · by_cases hj : js = []
    · subst hj
      exact absurd h (commaList_ne_nil hi)
    · have hsplit := congrArg (List.splitOn ',') h
      rw [splitOn_commaList hi, splitOn_commaList hj] at hsplit
      exact List.map_injective_iff.2 (fun _ _ => toDigits_injective) hsplit

end Decimal

/-! ## Names -/

def UnaryOp.all : List UnaryOp :=
  [not, abs, sqrt, exp, log, round, floor, ceil, sin, cos, asScalar, asMatrix, asDouble, asInteger,
    asLogical]

def BinaryOp.all : List BinaryOp :=
  [plus, minus, times, divide, modulus, intDivide, power, less, lessEqual, greater, greaterEqual,
    equal, notEqual, and, or, min, max, log, cbind, rbind]

theorem UnaryOp.find_symbol (op : UnaryOp) :
    UnaryOp.all.find? (fun o => o.symbol.toList == op.symbol.toList) = some op := by
  cases op <;> rfl

theorem BinaryOp.find_symbol (op : BinaryOp) :
    BinaryOp.all.find? (fun o => o.symbol.toList == op.symbol.toList) = some op := by
  cases op <;> rfl

namespace NodeKind

def IsDouble (k : NodeKind) : Prop := ∃ x, k = .literal (.double x)

/-- The kind of node that has a name. The first characters tell what to make of the others. -/
def ofName : List Char → Option NodeKind
  | '"' :: cs => some (.literal (.string (String.ofList cs.dropLast)))
  | 'u' :: '(' :: cs =>
      (UnaryOp.all.find? fun op => op.symbol.toList == cs.dropLast).map .unary
  | 'b' :: '(' :: cs =>
      (BinaryOp.all.find? fun op => op.symbol.toList == cs.dropLast).map .binary
  | 'T' :: 'R' :: 'e' :: 'a' :: 'd' :: ' ' :: cs => some (.data .read (String.ofList cs))
  | 'T' :: 'W' :: 'r' :: 'i' :: 't' :: 'e' :: ' ' :: cs =>
      some (.data .write (String.ofList cs))
  | 'T' :: _ => some (.literal (.boolean true))
  | 'F' :: _ => some (.literal (.boolean false))
  | cs => ((Decimal.readInteger cs).bind Word.ofInt?).map fun n => .literal (.int n)

theorem ofName_number {cs : List Char} (h : ∀ c ∈ cs, c = '-' ∨ c.isDigit = true) :
    ofName cs = ((Decimal.readInteger cs).bind Word.ofInt?).map fun n => .literal (.int n) := by
  unfold ofName
  -- Every other name starts with a character that does not occur in a number.
  split
  case h_8 => rfl
  all_goals exact absurd (h _ (.head _)) (by decide)

/-- Every name but that of a double tells the kind of node. -/
theorem ofName_name {k : NodeKind} (hk : ¬ k.IsDouble) : ofName k.name.toList = some k := by
  cases k with
  | literal v =>
      cases v with
      | double x => exact absurd ⟨x, rfl⟩ hk
      | int n =>
          change ofName (toString n.toInt).toList = _
          rw [ofName_number fun _ => Decimal.mem_toString, Decimal.readInteger_toString]
          simp [Word.ofInt?_toInt]
      | boolean b => cases b <;> rfl
      | string s =>
          have hname : (literal (.string s)).name.toList = '"' :: (s.toList ++ ['"']) := by
            simp [name, Value.quoted]
          rw [hname]
          change some (literal (.string (String.ofList (s.toList ++ ['"']).dropLast))) = _
          rw [List.dropLast_concat, String.ofList_toList]
  | unary op =>
      have hname : (unary op).name.toList = 'u' :: '(' :: (op.symbol.toList ++ [')']) := by
        simp [name]
      rw [hname]
      change (UnaryOp.all.find? fun o => o.symbol.toList ==
        (op.symbol.toList ++ [')']).dropLast).map unary = _
      rw [List.dropLast_concat, UnaryOp.find_symbol]
      rfl
  | binary op =>
      have hname : (binary op).name.toList = 'b' :: '(' :: (op.symbol.toList ++ [')']) := by
        simp [name]
      rw [hname]
      change (BinaryOp.all.find? fun o => o.symbol.toList ==
        (op.symbol.toList ++ [')']).dropLast).map binary = _
      rw [List.dropLast_concat, BinaryOp.find_symbol]
      rfl
  | data access var =>
      have hname : (data access var).name.toList = access.text.toList ++ ' ' :: var.toList := by
        simp [name]
      rw [hname]
      cases access with
      | read | write =>
          change some (data _ (String.ofList var.toList)) = _
          rw [String.ofList_toList]

theorem eq_of_name {k k' : NodeKind} (hk : ¬ k.IsDouble) (hk' : ¬ k'.IsDouble)
    (h : k.name = k'.name) : k = k' := by
  have hread := congrArg (fun s : String => ofName s.toList) h
  simp only [ofName_name hk, ofName_name hk'] at hread
  exact Option.some.inj hread

end NodeKind

/-! ## Line breaks -/

namespace Decimal.Layout

theorem mem_positional {digits : List Char} {e : Int} {c : Char} (h : c ∈ positional digits e) :
    c ∈ digits ∨ c = '0' ∨ c = '.' := by
  unfold positional at h
  split at h
  · simp only [List.mem_cons, List.mem_append, List.mem_replicate] at h
    rcases h with hzero | hpoint | hzero | hdigit
    · exact .inr (.inl hzero)
    · exact .inr (.inr hpoint)
    · exact .inr (.inl hzero.2)
    · exact .inl hdigit
  · simp only [List.mem_cons, List.mem_append, List.mem_replicate] at h
    rcases h with (hfront | hzero) | hpoint | hrest
    · exact .inl (List.mem_of_mem_take hfront)
    · exact .inr (.inl hzero.2)
    · exact .inr (.inr hpoint)
    · split at hrest
      · exact .inr (.inl (List.mem_singleton.1 hrest))
      · exact .inl (List.mem_of_mem_drop hrest)

theorem mem_exponential {digits : List Char} {e : Int} {c : Char} (h : c ∈ exponential digits e) :
    c ∈ digits ∨ c = '.' ∨ c = 'e' ∨ c ∈ (toString e).toList := by
  unfold exponential at h
  simp only [List.mem_append, List.mem_cons] at h
  rcases h with (hfirst | hrest) | hmark | hexponent
  · exact .inl (List.mem_of_mem_take hfirst)
  · split at hrest
    · cases hrest
    · rcases List.mem_cons.1 hrest with hpoint | hdigit
      · exact .inr (.inl hpoint)
      · exact .inl (List.mem_of_mem_drop hdigit)
  · exact .inr (.inr (.inl hmark))
  · exact .inr (.inr (.inr hexponent))

theorem newline_not_mem_scientific (layout : Layout) (s : Scientific) :
    '\n' ∉ layout.scientific s := by
  intro h
  unfold scientific at h
  simp only [] at h
  split at h
  · rcases mem_positional h with hdigit | hzero | hpoint
    · exact not_mem_toDigits (by decide) hdigit
    · exact absurd hzero (by decide)
    · exact absurd hpoint (by decide)
  · rcases mem_exponential h with hdigit | hpoint | hmark | hexponent
    · exact not_mem_toDigits (by decide) hdigit
    · exact absurd hpoint (by decide)
    · exact absurd hmark (by decide)
    · exact absurd (mem_toString hexponent) (by decide)

/-- A double is written in one line, if the words for what is no number are. -/
theorem newline_not_mem_write {layout : Layout} (hnan : '\n' ∉ layout.notANumber.toList)
    (hinf : '\n' ∉ layout.infinity.toList) (x : Float) : '\n' ∉ (layout.write x).toList := by
  have hmagnitude : ∀ y, '\n' ∉ (layout.magnitude y).toList := by
    intro y
    unfold magnitude
    split
    · exact hinf
    · split
      · decide
      · rw [String.toList_ofList]
        exact newline_not_mem_scientific layout _
  unfold write
  split
  · exact hnan
  · split
    · simpa using hmagnitude x.abs
    · exact hmagnitude x

end Decimal.Layout

namespace NodeKind

/-- The part of a name that may be any text: a string, or what a variable is called. -/
def freeText : NodeKind → String
  | .literal (.string s) => s
  | .data _ var => var
  | _ => ""

def OneLine (k : NodeKind) : Prop := '\n' ∉ k.freeText.toList

instance (k : NodeKind) : Decidable k.OneLine := inferInstanceAs (Decidable ('\n' ∉ _))

end NodeKind

theorem NodeKind.OneLine.newline_not_mem_name {k : NodeKind} (hk : k.OneLine) :
    '\n' ∉ k.name.toList := by
  cases k with
  | literal v =>
      cases v with
      | double x => exact Decimal.Layout.newline_not_mem_write (by decide) (by decide) x
      | int n => exact fun h => absurd (Decimal.mem_toString h) (by decide)
      | boolean b => cases b <;> decide
      | string s =>
          have hs : '\n' ∉ s.toList := hk
          simpa [name, Value.quoted] using hs
  | unary op => cases op <;> decide
  | binary op => cases op <;> decide
  | data access var =>
      have hvar : '\n' ∉ var.toList := hk
      cases access with
      | read | write => simpa [name, Access.text] using hvar

/-! ## Lines -/

theorem ValueType.text_injective {s t : ValueType} (h : s.text = t.text) : s = t := by
  cases s <;> cases t <;> simp_all [ValueType.text]

theorem DataType.text_injective {s t : DataType} (h : s.text = t.text) : s = t := by
  cases s <;> cases t <;> simp_all [DataType.text]

theorem ValueType.not_mem_text {c : Char} (hc : c.isUpper = false) (t : ValueType) :
    c ∉ t.text.toList :=
  not_mem_of_class (List.all_eq_true.1 (by cases t <;> decide)) hc

theorem DataType.not_mem_text {c : Char} (hc : c.isUpper = false) (t : DataType) :
    c ∉ t.text.toList :=
  not_mem_of_class (List.all_eq_true.1 (by cases t <;> decide)) hc

namespace Node

/-- What a line says about a node after its number. The brackets show where it is cut. -/
def body (n : Node) : List Char :=
  (((' ' :: n.kind.name.toList ++ [' ']) ++ '[' :: Decimal.commaList n.inputs ++ [']']) ++
    ' ' :: n.dataType.text.toList) ++ ' ' :: n.valueType.text.toList

theorem toList_line (id : NodeId) (n : Node) :
    (n.line id).toList = '(' :: (Nat.toDigits 10 id ++ ')' :: n.body) := by
  simp [line, body, Decimal.commaList, Function.comp_def]

/-- Two nodes that are listed in the same way. -/
structure Alike (n m : Node) : Prop where
  name : n.kind.name = m.kind.name
  inputs : n.inputs = m.inputs
  dataType : n.dataType = m.dataType
  valueType : n.valueType = m.valueType
  kind : ¬ n.kind.IsDouble → ¬ m.kind.IsDouble → n.kind = m.kind

/-- The back of a line is cut off piece by piece, and what is left is the name. -/
theorem alike_of_body {n m : Node} (h : n.body = m.body) : n.Alike m := by
  obtain ⟨h, hvalue⟩ := cut_at_last (ValueType.not_mem_text (by decide) _)
    (ValueType.not_mem_text (by decide) _) h
  obtain ⟨h, hdata⟩ := cut_at_last (DataType.not_mem_text (by decide) _)
    (DataType.not_mem_text (by decide) _) h
  obtain ⟨h, hinputs⟩ := cut_at_last (Decimal.not_mem_commaList (by decide) (by decide))
    (Decimal.not_mem_commaList (by decide) (by decide)) (List.append_cancel_right h)
  have hname := String.toList_inj.1 (List.cons.inj (List.append_cancel_right h)).2
  exact ⟨hname, Decimal.commaList_injective hinputs,
    DataType.text_injective (String.toList_inj.1 hdata),
    ValueType.text_injective (String.toList_inj.1 hvalue),
    fun hn hm => NodeKind.eq_of_name hn hm hname⟩

theorem alike_of_line {i j : NodeId} {n m : Node} (h : (n.line i).toList = (m.line j).toList) :
    i = j ∧ n.Alike m := by
  rw [toList_line, toList_line] at h
  obtain ⟨hid, hbody⟩ := cut_at_first (Decimal.not_mem_toDigits (by decide))
    (Decimal.not_mem_toDigits (by decide)) (List.cons.inj h).2
  exact ⟨Decimal.toDigits_injective hid, alike_of_body hbody⟩

theorem newline_not_mem_line {n : Node} (hn : n.kind.OneLine) (id : NodeId) :
    '\n' ∉ (n.line id).toList := by
  have hid : '\n' ∉ Nat.toDigits 10 id := Decimal.not_mem_toDigits (by decide)
  have hinputs : '\n' ∉ Decimal.commaList n.inputs :=
    Decimal.not_mem_commaList (by decide) (by decide)
  have hdata : '\n' ∉ n.dataType.text.toList := DataType.not_mem_text (by decide) _
  have hvalue : '\n' ∉ n.valueType.text.toList := ValueType.not_mem_text (by decide) _
  rw [toList_line]
  simp [body, hn.newline_not_mem_name, hid, hinputs, hdata, hvalue]

end Node

namespace Graph

/-- No name in the graph has a line break in it. -/
def OneLine (g : Graph) : Prop := ∀ id n, g.node? id = some n → n.kind.OneLine

theorem oneLine_iff {g : Graph} : g.OneLine ↔ ∀ n ∈ g.nodes, n.kind.OneLine := by
  constructor
  · intro hg n hn
    obtain ⟨id, hid⟩ := Array.getElem?_of_mem hn
    exact hg id n hid
  · exact fun hg id n hn => hg n (Array.mem_of_getElem? hn)

instance (g : Graph) : Decidable g.OneLine := decidable_of_iff _ oneLine_iff.symm

theorem toList_lineOf {g : Graph} {id : NodeId} {n : Node} (h : g.node? id = some n) :
    (g.lineOf id).toList = (n.line id).toList ++ ['\n'] := by
  simp [lineOf, h]

/-- Listings are the same line by line. -/
theorem alike_of_lines {g h : Graph} (hg : g.OneLine) (hh : h.OneLine) {is js : List NodeId}
    (hi : ∀ id ∈ is, id < g.size) (hj : ∀ id ∈ js, id < h.size)
    (hlines : is.flatMap (fun id => (g.lineOf id).toList) =
      js.flatMap (fun id => (h.lineOf id).toList)) :
    is = js ∧ ∀ id ∈ is, ∃ n m, g.node? id = some n ∧ h.node? id = some m ∧ n.Alike m := by
  induction is generalizing js with
  | nil =>
      cases js with
      | nil => exact ⟨rfl, by simp⟩
      | cons j js =>
          obtain ⟨m, hm⟩ := exists_node? (hj j (.head _))
          simp [toList_lineOf hm] at hlines
  | cons i is ih =>
      obtain ⟨n, hn⟩ := exists_node? (hi i (.head _))
      cases js with
      | nil => simp [toList_lineOf hn] at hlines
      | cons j js =>
          obtain ⟨m, hm⟩ := exists_node? (hj j (.head _))
          rw [List.flatMap_cons, List.flatMap_cons, toList_lineOf hn, toList_lineOf hm,
            List.append_assoc, List.append_assoc] at hlines
          obtain ⟨hline, hrest⟩ := cut_at_first (Node.newline_not_mem_line (hg i n hn) i)
            (Node.newline_not_mem_line (hh j m hm) j) hlines
          obtain ⟨rfl, halike⟩ := Node.alike_of_line hline
          obtain ⟨rfl, hall⟩ := ih (fun id hid => hi id (.tail _ hid))
            (fun id hid => hj id (.tail _ hid)) hrest
          exact ⟨rfl, List.forall_mem_cons.2 ⟨⟨n, m, hn, hm, halike⟩, hall⟩⟩

theorem listing_eq_ok {g : Graph} {roots : List NodeId} {text : String}
    (h : g.listing roots = .ok text) : ∃ order, g.postorder roots = .ok order ∧
      text.toList = order.flatMap fun id => (g.lineOf id).toList := by
  unfold listing at h
  cases hpost : g.postorder roots with
  | error e =>
      rw [hpost] at h
      cases h
  | ok order =>
      rw [hpost] at h
      cases h
      exact ⟨order, rfl, by rw [String.toList_join, List.flatMap_map]⟩

/-- Two graphs without line breaks in their names that have the same listing have the same
nodes below their roots, in the same order, and each of them is listed in the same way. -/
theorem listing_determines {g h : Graph} (hg : g.OneLine) (hh : h.OneLine)
    {roots roots' : List NodeId} {text : String} (hlist : g.listing roots = .ok text)
    (hlist' : h.listing roots' = .ok text) :
    ∃ order, g.postorder roots = .ok order ∧ h.postorder roots' = .ok order ∧
      ∀ id ∈ order, ∃ n m, g.node? id = some n ∧ h.node? id = some m ∧ n.Alike m := by
  obtain ⟨order, hpost, htext⟩ := listing_eq_ok hlist
  obtain ⟨order', hpost', htext'⟩ := listing_eq_ok hlist'
  obtain ⟨rfl, halike⟩ := alike_of_lines hg hh (fun _ => lt_of_mem_postorder hpost)
    (fun _ => lt_of_mem_postorder hpost') (htext.symm.trans htext')
  exact ⟨order, hpost, hpost', halike⟩

/-- A string and a variable whose names look like the ends of lines. -/
def lookalikes : Graph :=
  ⟨#[⟨.literal (.string "a\" [] SCALAR INT"), .string, .scalar, [], [2], false⟩,
    ⟨.data .read "x [0] FRAME INT", .string, .scalar, [], [2], false⟩,
    ⟨.binary .plus, .string, .scalar, [0, 1], [], false⟩]⟩

/-- The same, with marks, and with a node above that is not listed. -/
def lookalikesBelow : Graph :=
  ⟨#[⟨.literal (.string "a\" [] SCALAR INT"), .string, .scalar, [], [2], true⟩,
    ⟨.data .read "x [0] FRAME INT", .string, .scalar, [], [2], true⟩,
    ⟨.binary .plus, .string, .scalar, [0, 1], [3], false⟩,
    ⟨.data .write "y", .string, .scalar, [2], [], false⟩]⟩

def lookalikesText : String :=
  "(0) \"a\" [] SCALAR INT\" [] SCALAR STRING\n" ++
    "(1) TRead x [0] FRAME INT [] SCALAR STRING\n" ++ "(2) b(+) [0,1] SCALAR STRING\n"

theorem listing_determines_lookalikes :
    lookalikes.OneLine ∧ lookalikesBelow.OneLine ∧ lookalikes.listing [2] = .ok lookalikesText ∧
      lookalikesBelow.listing [0, 2] = .ok lookalikesText ∧
      ∃ order, lookalikes.postorder [2] = .ok order ∧ lookalikesBelow.postorder [0, 2] = .ok order ∧
        ∀ id ∈ order, ∃ n m, lookalikes.node? id = some n ∧ lookalikesBelow.node? id = some m ∧
          n.Alike m := by
  have hg : lookalikes.OneLine := by decide +kernel
  have hh : lookalikesBelow.OneLine := by decide +kernel
  have hlist : lookalikes.listing [2] = .ok lookalikesText := by decide +kernel
  have hlist' : lookalikesBelow.listing [0, 2] = .ok lookalikesText := by decide +kernel
  exact ⟨hg, hh, hlist, hlist', listing_determines hg hh hlist hlist'⟩

end Graph

end OpGraph
