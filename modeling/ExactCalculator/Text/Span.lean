/-! Byte ranges of a text. A text is a list of characters, an offset counts the bytes of its
UTF-8 encoding. `Span.cut?` takes a text apart at the two ends of a range and answers nothing when
an end falls inside a character or past the text; `splitAtByte_eq_some_iff` says so exactly. -/
namespace ExactCalculator
set_option autoImplicit false

/-! ## Cutting at one offset -/

/-- The number of bytes of the encoded text. -/
def byteLength : List Char → Nat
  | [] => 0
  | c :: cs => c.utf8Size + byteLength cs

@[simp] theorem byteLength_nil : byteLength [] = 0 := rfl

@[simp] theorem byteLength_cons (c : Char) (cs : List Char) :
    byteLength (c :: cs) = c.utf8Size + byteLength cs := rfl

@[simp] theorem byteLength_append (xs ys : List Char) :
    byteLength (xs ++ ys) = byteLength xs + byteLength ys := by
  induction xs with
  | nil => simp
  | cons c xs ih => simp [ih, Nat.add_assoc]

/-- The text before and after a byte offset, if the offset is a character boundary. -/
def splitAtByte : List Char → Nat → Option (List Char × List Char)
  | cs, 0 => some ([], cs)
  | [], _ + 1 => none
  | c :: cs, n + 1 =>
    if c.utf8Size ≤ n + 1 then
      match splitAtByte cs (n + 1 - c.utf8Size) with
      | some (before, after) => some (c :: before, after)
      | none => none
    else none

/-- A cut exists exactly where the text is a first part of that many bytes and a rest. -/
theorem splitAtByte_eq_some_iff {cs before after : List Char} {n : Nat} :
    splitAtByte cs n = some (before, after) ↔ cs = before ++ after ∧ byteLength before = n := by
  fun_induction splitAtByte cs n generalizing before with
  | case1 cs =>
    constructor
    · rintro ⟨⟩; simp
    · rintro ⟨rfl, hb⟩
      cases before with
      | nil => rfl
      | cons c cs => have := c.utf8Size_pos; simp at hb; omega
  | case2 n => cases before <;> simp
  | case3 c cs n hc l r hs ih =>
    cases before with
    | nil => simp
    | cons d before =>
      simp only [Option.some.injEq, Prod.mk.injEq, List.cons.injEq, List.cons_append,
        byteLength_cons]
      constructor
      · rintro ⟨⟨rfl, rfl⟩, rfl⟩
        have h := ih.1 (by rw [hs])
        refine ⟨⟨rfl, h.1⟩, ?_⟩
        have := h.2
        omega
      · rintro ⟨⟨rfl, ht⟩, hb⟩
        have h := ih.2 ⟨ht, by omega⟩
        rw [hs] at h
        simp at h
        exact ⟨⟨rfl, h.1⟩, h.2⟩
  | case4 c cs n hc hs ih =>
    cases before with
    | nil => simp
    | cons d before =>
      simp only [reduceCtorEq, List.cons_append, List.cons.injEq, byteLength_cons, false_iff]
      rintro ⟨⟨rfl, ht⟩, hb⟩
      have h := ih.2 ⟨ht, by omega⟩
      rw [hs] at h
      simp at h
  | case5 c cs n hc =>
    cases before with
    | nil => simp
    | cons d before =>
      simp only [reduceCtorEq, List.cons_append, List.cons.injEq, byteLength_cons, false_iff]
      rintro ⟨⟨rfl, ht⟩, hb⟩
      omega

theorem splitAtByte_append (xs ys : List Char) :
    splitAtByte (xs ++ ys) (byteLength xs) = some (xs, ys) :=
  splitAtByte_eq_some_iff.2 ⟨rfl, rfl⟩

/-! ## Ranges -/

/-- A range of byte offsets, `start` included and `stop` not. -/
structure Span where
  start : Nat
  stop : Nat
deriving DecidableEq, Repr

/-- A text in three parts: what stands before a range, in it and after it. -/
structure Cut where
  before : List Char
  inside : List Char
  after : List Char
deriving DecidableEq, Repr

namespace Span

def emptyAt (offset : Nat) : Span := ⟨offset, offset⟩

def ofChar (c : Char) (offset : Nat) : Span := ⟨offset, offset + c.utf8Size⟩

def length (span : Span) : Nat := span.stop - span.start

/-- The text taken apart at the ends of the range, if both are character boundaries of it. -/
def cut? (span : Span) (text : List Char) : Option Cut :=
  match splitAtByte text span.start with
  | none => none
  | some (before, rest) =>
    match splitAtByte rest span.length with
    | none => none
    | some (inside, after) => some ⟨before, inside, after⟩

/-- The part of the text in the range; empty if the range does not fit the text. -/
def slice (span : Span) (text : String) : String :=
  match span.cut? text.toList with
  | some cut => String.ofList cut.inside
  | none => ""

end Span

end ExactCalculator
