import CrdtRedis.Crdt
import Mathlib.Logic.Function.Basic
import Mathlib.Tactic

/-!
# Attributes of list elements (`list_basics.h`)

An element has three attributes that are numbers (`FORALL_NORMAL`) and three that are bits of one
number (`FORALL_BITMAP`). The fields are 32-bit numbers; the arguments of the commands are 64-bit
ones, which an assignment cuts.

`Attrs.get` reads an attribute, a bit as `0` or `1`, and `Attrs.set` writes one; an attribute that
is written has the value written (`Attrs.get_set_self`) and the others keep theirs
(`Attrs.get_set_ne`).
-/

namespace CrdtRedis

/-- `FORALL_NORMAL`. -/
inductive Normal where
  | font
  | size
  | color
  deriving DecidableEq

/-- `FORALL_BITMAP`. -/
inductive Bitmap where
  | bold
  | italic
  | underline
  deriving DecidableEq

/-- `FORALL`. -/
inductive Attr where
  | normal (p : Normal)
  | bitmap (b : Bitmap)
  deriving DecidableEq

def Attr.all : List Attr :=
  [.normal .font, .normal .size, .normal .color, .bitmap .bold, .bitmap .italic,
    .bitmap .underline]

def Attr.name : Attr → Sds
  | .normal .font => "font".toList
  | .normal .size => "size".toList
  | .normal .color => "color".toList
  | .bitmap .bold => "bold".toList
  | .bitmap .italic => "italic".toList
  | .bitmap .underline => "underline".toList

/-- The attribute that the type of an update names, in any case. -/
def attrOf (type : Sds) : Option Attr := Attr.all.find? fun p => strEq (sdstolower type) p.name

theorem toLower_toLower (c : Char) : c.toLower.toLower = c.toLower := by
  unfold Char.toLower
  grind

@[simp] theorem attrOf_sdstolower (type : Sds) : attrOf (sdstolower type) = attrOf type := by
  have : sdstolower (sdstolower type) = sdstolower type := by
    rw [sdstolower, sdstolower, List.map_map]
    exact List.map_congr_left fun c _ => toLower_toLower c
  rw [attrOf, attrOf, this]

/-- The bit of an attribute in `property_type`. -/
def Bitmap.bit : Bitmap → ℕ
  | .bold => 0
  | .italic => 1
  | .underline => 2

/-- The fields `font`, `size`, `color` and `property` of an element. -/
@[ext] structure Attrs where
  normal : Normal → BitVec 32
  property : BitVec 32

/-- The value of an attribute; of a bit, `0` or `1`. -/
def Attrs.get (a : Attrs) : Attr → BitVec 32
  | .normal p => a.normal p
  | .bitmap b => if a.property &&& BitVec.twoPow 32 b.bit = 0 then 0 else 1

/-- Write an attribute: a number gets `v`; a bit is cleared if `zero`, and set otherwise. -/
def Attrs.set (a : Attrs) (p : Attr) (v : BitVec 32) (zero : Bool) : Attrs :=
  match p with
  | .normal p => { a with normal := Function.update a.normal p v }
  | .bitmap b =>
    { a with property :=
        if zero then a.property &&& ~~~BitVec.twoPow 32 b.bit
        else a.property ||| BitVec.twoPow 32 b.bit }

/-- What `Attrs.get` reads after the write. -/
def Attr.written (p : Attr) (v : BitVec 32) (zero : Bool) : BitVec 32 :=
  match p with
  | .normal _ => v
  | .bitmap _ => if zero then 0 else 1

/-- The attributes that an insert gives. -/
structure InsertArgs where
  font : BitVec 64
  size : BitVec 64
  color : BitVec 64
  property : BitVec 64
  deriving DecidableEq

def InsertArgs.normal (g : InsertArgs) : Normal → BitVec 64
  | .font => g.font
  | .size => g.size
  | .color => g.color

/-- `(property & __T) == 0`. -/
def InsertArgs.zero (g : InsertArgs) (b : Bitmap) : Bool :=
  g.property &&& BitVec.twoPow 64 b.bit = 0

/-- Write attribute `p` as an insert gives it. -/
def Attrs.give (a : Attrs) (g : InsertArgs) (p : Attr) : Attrs :=
  match p with
  | .normal q => a.set p ((g.normal q).setWidth 32) false
  | .bitmap b => a.set p 0 (g.zero b)

/-- The value of attribute `p` that an insert gives. -/
def InsertArgs.get (g : InsertArgs) : Attr → BitVec 32
  | .normal p => (g.normal p).setWidth 32
  | .bitmap b => if g.zero b then 0 else 1

theorem and_twoPow_eq_zero {w i : ℕ} (h : i < w) (x : BitVec w) :
    x &&& BitVec.twoPow w i = 0#w ↔ x.getLsbD i = false := by
  rw [BitVec.and_twoPow]
  cases hx : x.getLsbD i
  · simp
  · simp only [if_true, reduceCtorEq, iff_false]
    intro h0
    have := congrArg (·.getLsbD i) h0
    simp [h] at this

theorem Bitmap.bit_lt (b : Bitmap) : b.bit < 32 := by cases b <;> decide

theorem Bitmap.bit_injective {b c : Bitmap} (h : b.bit = c.bit) : b = c := by
  cases b <;> cases c <;> first | rfl | exact absurd h (by decide)

@[simp] theorem Attrs.get_set_self (a : Attrs) (p : Attr) (v : BitVec 32) (zero : Bool) :
    (a.set p v zero).get p = p.written v zero := by
  cases p with
  | normal p => simp [Attrs.set, Attrs.get, Attr.written]
  | bitmap b =>
    have hb := b.bit_lt
    cases zero
    · simp only [Attrs.set, Attrs.get, Attr.written, Bool.false_eq_true, if_false]
      rw [if_neg]
      rw [show (0 : BitVec 32) = 0#32 from rfl, and_twoPow_eq_zero hb]
      simp [hb]
    · simp only [Attrs.set, Attrs.get, Attr.written, if_true]
      rw [if_pos]
      rw [show (0 : BitVec 32) = 0#32 from rfl, and_twoPow_eq_zero hb]
      simp [hb]

theorem Attrs.get_set_ne (a : Attrs) {p q : Attr} (h : q ≠ p) (v : BitVec 32) (zero : Bool) :
    (a.set p v zero).get q = a.get q := by
  cases p with
  | normal p =>
    cases q with
    | normal q =>
      have hqp : q ≠ p := fun e => h (by rw [e])
      simp [Attrs.set, Attrs.get, hqp]
    | bitmap c => rfl
  | bitmap b =>
    cases q with
    | normal q => rfl
    | bitmap c =>
      have hb := c.bit_lt
      have hcb : c.bit ≠ b.bit := fun e => h (by rw [Bitmap.bit_injective e])
      simp only [Attrs.set, Attrs.get, show (0 : BitVec 32) = 0#32 from rfl,
        and_twoPow_eq_zero hb]
      cases zero <;> simp [hb, hcb]

@[simp] theorem Attrs.get_give_self (a : Attrs) (g : InsertArgs) (p : Attr) :
    (a.give g p).get p = g.get p := by
  cases p <;> simp [Attrs.give, InsertArgs.get, Attr.written]

theorem Attrs.get_give_ne (a : Attrs) (g : InsertArgs) {p q : Attr} (h : q ≠ p) :
    (a.give g p).get q = a.get q := by
  cases p with
  | normal p => exact a.get_set_ne h _ false
  | bitmap b => exact a.get_set_ne h 0 (g.zero b)

/-- Write the attributes of a list that satisfy `ok` as an insert gives them. -/
theorem Attrs.get_foldl_give (g : InsertArgs) (ok : Attr → Bool) (l : List Attr) (a : Attrs)
    (p : Attr) : (l.foldl (fun a q => if ok q then a.give g q else a) a).get p =
      if p ∈ l ∧ ok p then g.get p else a.get p := by
  induction l using List.reverseRecOn with
  | nil => simp
  | append_singleton l q ih =>
    rw [List.foldl_concat]
    by_cases hpq : p = q
    · subst hpq
      by_cases hok : ok p
      · simp [hok]
      · simp [hok, ih]
    · by_cases hok : ok q
      · simp [hok, hpq, Attrs.get_give_ne _ _ hpq, ih]
      · simp [hok, hpq, ih]

theorem Attr.mem_all (p : Attr) : p ∈ Attr.all := by
  rcases p with p | p <;> cases p <;> decide

end CrdtRedis
