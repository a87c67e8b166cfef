import CrdtRedis.Attrs
import CrdtRedis.Leid
import CrdtRedis.Linked

/-!
# The lists' hash table (`list_basics.c`, `RWFramework.c`)

A list is one hash table. Under the name of an element it has a pointer to the element, and in the
same table, under fixed names, the pointer to the head of the chain, the length, the pointer to the
list's clock and, in the Remove-Win list, the one to its unready commands. The bytes of an entry
(`Cell`) have no type: a reader takes them for what it expects. A read of an entry as something else
is undefined behaviour; here it has no result, and so has a read through a null pointer.

A pointer to an element is the name under which the element was allocated: a name is allocated at
most once, and elements are never freed. `Ht` is the table with the memory it points to. `node` also
has the elements that are not allocated yet, with the values that a new element has, and `clock`
the value of a new clock.

The code that both list types share is stated for every type `X` of the other fields of an element:
`link` and `insertNew` put a new element into the chain, `prepareInsert` is the part of the prepare
phase of an insert that finds its place.

* `Typed N`: every name outside `N` has its own element or nothing, and the fixed names have what
  they should. Then every access has a result (`find_eq`, `create_eq`, `incrLen_eq`, ...).
* `Listed l`: the chain from the head is `l`, and it has exactly the elements with a place.
* `insertNew_spec`: a new element is put into the chain after elements with smaller identifiers.
-/

namespace CrdtRedis

open Linked

/-! ## The model -/

/-- A command on a list. -/
inductive LCmd where
  | insert (argc : ℕ) (prev id content : Sds) (font size color property : Option (BitVec 64))
    (rand : ℕ)
  | update (argc : ℕ) (id type : Sds) (value : Option (BitVec 64))
  | rem (argc : ℕ) (id : Sds)

/-- The names of elements in a command. -/
def LCmd.names : LCmd → List Sds
  | .insert _ prev id .. => [prev, id]
  | .update _ id .. | .rem _ id => [id]

/-- The command names none of `N`. -/
def LCmd.avoids (o : LCmd) (N : List Sds) : Bool := o.names.all (· ∉ N)

theorem LCmd.avoids_iff {o : LCmd} {N : List Sds} :
    o.avoids N = true ↔ ∀ k ∈ o.names, k ∉ N := by
  simp [LCmd.avoids]

/-- An insert of `id` in front, with font, size and color `1`. -/
def insertFront (id : Sds) (rand : ℕ) : LCmd :=
  .insert 9 "null".toList id "c".toList (some 1) (some 1) (some 1) (some 0) rand

/-- The checks of the number arguments of an insert. -/
def insertArgs (font size color property : Option (BitVec 64)) : Except ReplyErr InsertArgs := do
  let font ← checkArg .notInteger font
  let size ← checkArg .notInteger size
  let color ← checkArg .notInteger color
  let property ← checkArg .notInteger property
  return ⟨font, size, color, property⟩

/-- What the bytes of an entry of the table are. -/
inductive Cell where
  /-- The pointer to an element. -/
  | ele (p : Sds)
  /-- The pointer to the list's clock. -/
  | clock
  | len (v : ℤ)
  /-- The pointer to the list of unready commands. -/
  | ops
  deriving DecidableEq

/-- An element: the fields that both list types have, and the others. -/
@[ext] structure Node (X : Type) where
  oid : Option Sds
  posId : Option Leid
  content : Option Sds
  body : X
  next : Option Sds

/-- An element without a place, as the `New` functions make it. -/
def Node.new {X : Type} (x : X) : Node X := ⟨none, none, none, x, none⟩

/-- A list: the hash table and the memory that it points to. -/
@[ext] structure Ht (n : ℕ) (X : Type) where
  table : Sds → Option Cell
  node : Sds → Node X
  /-- The elements that are allocated. -/
  alloc : List Sds
  clock : Clock n

def headKey : Sds := "head".toList
def lengthKey : Sds := "length".toList
def currentKey : Sds := "current".toList
def opsKey : Sds := "ops".toList
def nullWord : Sds := "null".toList
def readdWord : Sds := "readd".toList

namespace Ht

variable {n : ℕ} {X : Type}

/-- No list yet, at replica `r`. -/
def new (r : Fin n) (x : Sds → X) : Ht n X := ⟨fun _ => none, fun k => .new (x k), [], vcNew r⟩

def getHead (ht : Ht n X) : Option (Option Sds) :=
  match ht.table headKey with
  | none => some none
  | some (.ele p) => some (some p)
  | some _ => none

def setHead (ht : Ht n X) (e : Sds) : Ht n X :=
  { ht with table := Function.update ht.table headKey (some (.ele e)) }

/-- `getCurrent`: the clock is then `clock`. -/
def getCurrent (ht : Ht n X) : Option (Ht n X) :=
  match ht.table currentKey with
  | none => some { ht with table := Function.update ht.table currentKey (some .clock) }
  | some .clock => some ht
  | some _ => none

/-- `getOps`, of the Remove-Win list. -/
def getOps (ht : Ht n X) : Option (Ht n X) :=
  match ht.table opsKey with
  | none => some { ht with table := Function.update ht.table opsKey (some .ops) }
  | some .ops => some ht
  | some _ => none

def getLen (ht : Ht n X) : Option ℤ :=
  match ht.table lengthKey with
  | none => some 0
  | some (.len v) => some v
  | some _ => none

def incrLen (ht : Ht n X) (inc : ℤ) : Option (Ht n X) :=
  ht.getLen.map fun len =>
    { ht with table := Function.update ht.table lengthKey (some (.len (len + inc))) }

/-- `rehHTGet` without `create`. -/
def find (ht : Ht n X) (k : Sds) : Option (Option Sds) :=
  match ht.table k with
  | none => some none
  | some (.ele p) => some (some p)
  | some _ => none

/-- `rehHTGet` with `create`. -/
def create (ht : Ht n X) (k : Sds) : Option (Ht n X × Sds) :=
  match ht.table k with
  | none =>
    some ({ ht with
      table := Function.update ht.table k (some (.ele k))
      alloc := k :: ht.alloc }, k)
  | some (.ele p) => some (ht, p)
  | some _ => none

def setNode (ht : Ht n X) (p : Sds) (x : Node X) : Ht n X :=
  { ht with node := Function.update ht.node p x }

def setNext (ht : Ht n X) (p : Sds) (q : Option Sds) : Ht n X :=
  ht.setNode p { ht.node p with next := q }

def setBody (ht : Ht n X) (p : Sds) (x : X) : Ht n X :=
  ht.setNode p { ht.node p with body := x }

def setClock (ht : Ht n X) (c : Clock n) : Ht n X := { ht with clock := c }

/-- The links. -/
def nexts (ht : Ht n X) (p : Sds) : Option Sds := (ht.node p).next

/-- The test of the search loop: the new element, with identifier `x`, comes after `q`. -/
def after (ht : Ht n X) (x : Leid) (q : Sds) : Option Bool :=
  (ht.node q).posId.map fun y => 0 < leidCmp x y

/-- Where the search starts: at the element named by the command if it has a place. -/
def startAt (ht : Ht n X) (pre : Option Sds) (h : Sds) : Sds :=
  match pre with
  | some p => if (ht.node p).posId.isSome then p else h
  | none => h

/-- Put element `e`, with identifier `x`, into the chain. -/
def link (ht : Ht n X) (e : Sds) (x : Leid) (prev : Sds) : Option (Ht n X) :=
  ht.getHead.bind fun
    | none => some (ht.setHead e)
    | some h =>
      (ht.node h).posId.bind fun y =>
        if leidCmp x y < 0 then some ((ht.setHead e).setNext e (some h))
        else
          (ht.find prev).bind fun pre =>
            (walk ht.nexts (ht.after x) (ht.alloc.length + 1)
              (ht.startAt pre h)).map fun (p, q) => (ht.setNext p (some e)).setNext e q

/-- `sdsToLeid`, on the text of `p`: it writes the positions to a buffer of 1024. -/
def readLeid (p : Leid) : Option Leid := if p.length ≤ 1024 then some p else none

/-- The first insert of element `e` gives it its place. -/
def insertNew (ht : Ht n X) (e id content prev : Sds) (pos : Leid) : Option (Ht n X) :=
  (readLeid pos).bind fun x =>
    (ht.setNode e { ht.node e with
      oid := some id, content := some content, posId := some x }).link e x prev

/-- The identifiers of the neighbours of a new element. -/
def neighbours (ht : Ht n X) : Option Sds → Option (Option Leid × Option Leid)
  | none => ht.getHead.map fun h => (none, h.bind fun h => (ht.node h).posId)
  | some p => some ((ht.node p).posId, (ht.node p).next.bind fun q => (ht.node q).posId)

/-- The identifier that an insert of element `e` after `pre` sends: `present` is the type's test
that an element is in the list and `tick` what the type does to the list's clock. -/
def insertPos (present : X → Bool) (tick : Clock n → Clock n) (ht : Ht n X) (pre : Option Sds)
    (prev id e : Sds) (rand : ℕ) : Option (Ht n X × Except ReplyErr (Sds × Sds × Leid)) :=
  if present (ht.node e).body then some (ht, .error .eleExist)
  else if (ht.node e).oid.isNone then
    if strEq prev readdWord then some (ht, .error (.notAdded id))
    else
      (ht.neighbours pre).bind fun (left, right) =>
        ht.getCurrent.map fun ht =>
          (ht.setClock (tick ht.clock), .ok (prev, e, constructLeid left right ht.clock rand))
  else if !strEq prev readdWord then some (ht, .error (.onlyReadd id))
  else (ht.node e).posId.map fun x => (ht, .ok (prev, e, x))

/-- The prepare phase of an insert after the checks of its arguments, up to the identifier: `prev`
as it is sent, the element and the identifier. -/
def prepareInsert (present : X → Bool) (tick : Clock n → Clock n) (ht : Ht n X) (prev id : Sds)
    (rand : ℕ) : Option (Ht n X × Except ReplyErr (Sds × Sds × Leid)) :=
  (ht.find prev).bind fun pre =>
    let prev := if pre.isNone then sdstolower prev else prev
    if pre.isNone && !strEq prev nullWord && !strEq prev readdWord then
      some (ht, .error (.noPre prev))
    else if pre.any fun p => !present (ht.node p).body || (ht.node p).posId.isNone then
      some (ht, .error (.noPre prev))
    else (ht.create id).bind fun (ht, e) => ht.insertPos present tick pre prev id e rand

/-! ## The fields after an update -/

variable {ht : Ht n X} {k p e : Sds} {N : List Sds}

/-- The head, if its entry is one. -/
def headD (ht : Ht n X) : Option Sds :=
  match ht.table headKey with
  | some (.ele p) => some p
  | _ => none

/-- The length, if its entry is one. -/
def lenD (ht : Ht n X) : ℤ :=
  match ht.table lengthKey with
  | some (.len v) => v
  | _ => 0

def setLen (ht : Ht n X) (v : ℤ) : Ht n X :=
  { ht with table := Function.update ht.table lengthKey (some (.len v)) }

/-- The list with its clock's entry. -/
def withClock (ht : Ht n X) : Ht n X :=
  { ht with table := Function.update ht.table currentKey (some .clock) }

/-- The list with the entry of its unready commands. -/
def withOps (ht : Ht n X) : Ht n X :=
  { ht with table := Function.update ht.table opsKey (some .ops) }

/-- The list with the entry of element `k`. -/
def withEle (ht : Ht n X) (k : Sds) : Ht n X :=
  if ht.table k = none then
    { ht with table := Function.update ht.table k (some (.ele k)), alloc := k :: ht.alloc }
  else ht

section Fields

variable {x : Node X} {v : ℤ} {c : Clock n}

@[simp] theorem setHead_headD : (ht.setHead e).headD = some e := by simp [setHead, headD]
@[simp] theorem setHead_lenD : (ht.setHead e).lenD = ht.lenD := by
  simp [setHead, lenD, show lengthKey ≠ headKey by decide]
@[simp] theorem setHead_node : (ht.setHead e).node = ht.node := rfl
@[simp] theorem setHead_alloc : (ht.setHead e).alloc = ht.alloc := rfl
@[simp] theorem setHead_clock : (ht.setHead e).clock = ht.clock := rfl

@[simp] theorem setLen_headD : (ht.setLen v).headD = ht.headD := by
  simp [setLen, headD, show headKey ≠ lengthKey by decide]
@[simp] theorem setLen_lenD : (ht.setLen v).lenD = v := by simp [setLen, lenD]
@[simp] theorem setLen_node : (ht.setLen v).node = ht.node := rfl
@[simp] theorem setLen_alloc : (ht.setLen v).alloc = ht.alloc := rfl
@[simp] theorem setLen_clock : (ht.setLen v).clock = ht.clock := rfl

@[simp] theorem withClock_headD : ht.withClock.headD = ht.headD := by
  simp [withClock, headD, show headKey ≠ currentKey by decide]
@[simp] theorem withClock_lenD : ht.withClock.lenD = ht.lenD := by
  simp [withClock, lenD, show lengthKey ≠ currentKey by decide]
@[simp] theorem withClock_node : ht.withClock.node = ht.node := rfl
@[simp] theorem withClock_alloc : ht.withClock.alloc = ht.alloc := rfl
@[simp] theorem withClock_clock : ht.withClock.clock = ht.clock := rfl

@[simp] theorem withOps_headD : ht.withOps.headD = ht.headD := by
  simp [withOps, headD, show headKey ≠ opsKey by decide]
@[simp] theorem withOps_lenD : ht.withOps.lenD = ht.lenD := by
  simp [withOps, lenD, show lengthKey ≠ opsKey by decide]
@[simp] theorem withOps_node : ht.withOps.node = ht.node := rfl
@[simp] theorem withOps_alloc : ht.withOps.alloc = ht.alloc := rfl
@[simp] theorem withOps_clock : ht.withOps.clock = ht.clock := rfl

@[simp] theorem setClock_headD : (ht.setClock c).headD = ht.headD := rfl
@[simp] theorem setClock_lenD : (ht.setClock c).lenD = ht.lenD := rfl
@[simp] theorem setClock_node : (ht.setClock c).node = ht.node := rfl
@[simp] theorem setClock_alloc : (ht.setClock c).alloc = ht.alloc := rfl
@[simp] theorem setClock_clock : (ht.setClock c).clock = c := rfl

theorem setBody_body (y : X) : ((ht.setBody p y).node p).body = y := by
  simp [setBody, setNode]

@[simp] theorem setNode_headD : (ht.setNode p x).headD = ht.headD := rfl
@[simp] theorem setNode_lenD : (ht.setNode p x).lenD = ht.lenD := rfl
@[simp] theorem setNode_node : (ht.setNode p x).node = Function.update ht.node p x := rfl
@[simp] theorem setNode_alloc : (ht.setNode p x).alloc = ht.alloc := rfl
@[simp] theorem setNode_clock : (ht.setNode p x).clock = ht.clock := rfl

theorem withEle_headD (hk : k ≠ headKey) : (ht.withEle k).headD = ht.headD := by
  unfold withEle; split <;> simp [headD, hk.symm]
theorem withEle_lenD (hk : k ≠ lengthKey) : (ht.withEle k).lenD = ht.lenD := by
  unfold withEle; split <;> simp [lenD, hk.symm]
@[simp] theorem withEle_node : (ht.withEle k).node = ht.node := by unfold withEle; split <;> rfl
@[simp] theorem withEle_clock : (ht.withEle k).clock = ht.clock := by unfold withEle; split <;> rfl

@[simp] theorem setHead_nexts : (ht.setHead e).nexts = ht.nexts := rfl

@[simp] theorem setNext_nexts {q : Option Sds} :
    (ht.setNext p q).nexts = Function.update ht.nexts p q := by
  funext k
  by_cases h : k = p
  · subst h; simp [setNext, nexts]
  · simp [setNext, nexts, h]

/-- A change of a link changes nothing else. -/
theorem setNext_fields {q : Option Sds} : ((ht.setNext p q).node k).oid = (ht.node k).oid ∧
    ((ht.setNext p q).node k).posId = (ht.node k).posId ∧
    ((ht.setNext p q).node k).content = (ht.node k).content ∧
    ((ht.setNext p q).node k).body = (ht.node k).body := by
  by_cases h : k = p
  · subst h; simp [setNext]
  · simp [setNext, h]

end Fields

/-! ## Typed tables -/

/-- The fixed names have what they should, and every name outside `N` its own element or
nothing. -/
structure Typed (N : List Sds) (ht : Ht n X) : Prop where
  fixed : headKey ∈ N ∧ lengthKey ∈ N ∧ currentKey ∈ N
  ele : ∀ k ∉ N, (ht.table k = none ∧ k ∉ ht.alloc) ∨ (ht.table k = some (.ele k) ∧ k ∈ ht.alloc)
  head : ht.table headKey = ht.headD.map .ele
  len : ht.table lengthKey = none ∨ ht.table lengthKey = some (.len ht.lenD)
  clock : ht.table currentKey = none ∨ ht.table currentKey = some .clock
  ops : opsKey ∈ N → ht.table opsKey = none ∨ ht.table opsKey = some .ops

namespace Typed

variable (h : Typed N ht)

include h

theorem ne_head (hk : k ∉ N) : k ≠ headKey := by rintro rfl; exact hk h.fixed.1
theorem ne_length (hk : k ∉ N) : k ≠ lengthKey := by rintro rfl; exact hk h.fixed.2.1
theorem ne_current (hk : k ∉ N) : k ≠ currentKey := by rintro rfl; exact hk h.fixed.2.2

theorem getHead_eq : ht.getHead = some ht.headD := by
  have hh := h.head
  unfold getHead
  cases hd : ht.headD <;> simp [hh, hd]

theorem getLen_eq : ht.getLen = some ht.lenD := by
  unfold getLen
  rcases h.len with hl | hl
  · simp [hl, lenD]
  · simp [hl]

theorem incrLen_eq (v : ℤ) : ht.incrLen v = some (ht.setLen (ht.lenD + v)) := by
  simp [incrLen, h.getLen_eq, setLen]

theorem getCurrent_eq : ht.getCurrent = some ht.withClock := by
  unfold getCurrent
  rcases h.clock with hc | hc
  · simp [hc, withClock]
  · simp only [hc, withClock]
    rw [Function.update_eq_self_iff.mpr hc.symm]

theorem getOps_eq (hN : opsKey ∈ N) : ht.getOps = some ht.withOps := by
  unfold getOps
  rcases h.ops hN with ho | ho
  · simp [ho, withOps]
  · simp only [ho, withOps]
    rw [Function.update_eq_self_iff.mpr ho.symm]

theorem find_eq (hk : k ∉ N) : ht.find k = some (if k ∈ ht.alloc then some k else none) := by
  unfold find
  rcases h.ele k hk with ⟨ht, ha⟩ | ⟨ht, ha⟩ <;> simp [ht, ha]

theorem create_eq (hk : k ∉ N) : ht.create k = some (ht.withEle k, k) := by
  unfold create withEle
  rcases h.ele k hk with ⟨ht, ha⟩ | ⟨ht, ha⟩ <;> simp [ht]

theorem mem_withEle (hk : k ∉ N) : p ∈ (ht.withEle k).alloc ↔ p = k ∨ p ∈ ht.alloc := by
  unfold withEle
  rcases h.ele k hk with ⟨ht, ha⟩ | ⟨ht, ha⟩
  · simp [ht]
  · simp only [ht, reduceCtorEq, if_false]
    exact ⟨.inr, by rintro (rfl | hp) <;> assumption⟩

theorem setNode (x : Node X) : Typed N (ht.setNode p x) :=
  ⟨h.fixed, h.ele, h.head, h.len, h.clock, h.ops⟩

theorem setBody (y : X) : Typed N (ht.setBody p y) := h.setNode _

theorem setClock (c : Clock n) : Typed N (ht.setClock c) :=
  ⟨h.fixed, h.ele, h.head, h.len, h.clock, h.ops⟩

theorem setHead : Typed N (ht.setHead e) where
  fixed := h.fixed
  ele k hk := by simpa [Ht.setHead, h.ne_head hk] using h.ele k hk
  head := by simp [Ht.setHead, headD]
  len := by
    rw [setHead_lenD]
    simpa [Ht.setHead, show lengthKey ≠ headKey by decide] using h.len
  clock := by simpa [Ht.setHead, show currentKey ≠ headKey by decide] using h.clock
  ops hN := by simpa [Ht.setHead, show opsKey ≠ headKey by decide] using h.ops hN

theorem setLen (v : ℤ) : Typed N (ht.setLen v) where
  fixed := h.fixed
  ele k hk := by simpa [Ht.setLen, h.ne_length hk] using h.ele k hk
  head := by
    rw [setLen_headD]
    simpa [Ht.setLen, show headKey ≠ lengthKey by decide] using h.head
  len := by simp [Ht.setLen, lenD]
  clock := by simpa [Ht.setLen, show currentKey ≠ lengthKey by decide] using h.clock
  ops hN := by simpa [Ht.setLen, show opsKey ≠ lengthKey by decide] using h.ops hN

theorem withClock : Typed N ht.withClock where
  fixed := h.fixed
  ele k hk := by simpa [Ht.withClock, h.ne_current hk] using h.ele k hk
  head := by
    rw [withClock_headD]
    simpa [Ht.withClock, show headKey ≠ currentKey by decide] using h.head
  len := by
    rw [withClock_lenD]
    simpa [Ht.withClock, show lengthKey ≠ currentKey by decide] using h.len
  clock := by simp [Ht.withClock]
  ops hN := by simpa [Ht.withClock, show opsKey ≠ currentKey by decide] using h.ops hN

theorem withOps (hN : opsKey ∈ N) : Typed N ht.withOps where
  fixed := h.fixed
  ele k hk := by
    have hne : k ≠ opsKey := by rintro rfl; exact hk hN
    simpa [Ht.withOps, hne] using h.ele k hk
  head := by
    rw [withOps_headD]
    simpa [Ht.withOps, show headKey ≠ opsKey by decide] using h.head
  len := by
    rw [withOps_lenD]
    simpa [Ht.withOps, show lengthKey ≠ opsKey by decide] using h.len
  clock := by simpa [Ht.withOps, show currentKey ≠ opsKey by decide] using h.clock
  ops _ := by simp [Ht.withOps]

theorem withEle (hk : k ∉ N) : Typed N (ht.withEle k) := by
  rcases h.ele k hk with ⟨hn, ha⟩ | ⟨hs, -⟩
  · have hh : (ht.withEle k).headD = ht.headD := withEle_headD (h.ne_head hk)
    have hl : (ht.withEle k).lenD = ht.lenD := withEle_lenD (h.ne_length hk)
    have htab : (ht.withEle k).table = Function.update ht.table k (some (.ele k)) := by
      simp [Ht.withEle, hn]
    refine ⟨h.fixed, fun p hp => ?_, ?_, ?_, ?_, fun hN => ?_⟩
    · rw [h.mem_withEle hk, htab]
      by_cases hpk : p = k
      · simp [hpk]
      · simpa [hpk] using h.ele p hp
    · rw [hh, htab, Function.update_of_ne (h.ne_head hk).symm]; exact h.head
    · rw [hl, htab, Function.update_of_ne (h.ne_length hk).symm]; exact h.len
    · rw [htab, Function.update_of_ne (h.ne_current hk).symm]; exact h.clock
    · have hne : opsKey ≠ k := by rintro rfl; exact hk hN
      rw [htab, Function.update_of_ne hne]; exact h.ops hN
  · have : ht.withEle k = ht := by simp [Ht.withEle, hs]
    rw [this]; exact h

end Typed

theorem Typed.new {r : Fin n} {x : Sds → X}
    (hN : headKey ∈ N ∧ lengthKey ∈ N ∧ currentKey ∈ N) : Typed N (Ht.new r x) :=
  ⟨hN, fun _ _ => .inl ⟨rfl, by simp [Ht.new]⟩, rfl, .inl rfl, .inl rfl, fun _ => .inl rfl⟩

/-! ## The links -/

/-- The elements reached from a link are `l`, and all of them have a place. -/
def Reaches (ht : Ht n X) (h : Option Sds) (l : List Sds) : Prop :=
  Chain ht.nexts h l ∧ ∀ q ∈ l, (ht.node q).posId.isSome

/-- The identifiers of the elements fit the decoder's buffer. -/
def Fits (ht : Ht n X) : Prop := ∀ k, ∀ y ∈ (ht.node k).posId, y.length ≤ 1024

/-- Every link ends. -/
structure Sound (ht : Ht n X) : Prop where
  oid : ∀ k, (ht.node k).oid.isSome = (ht.node k).posId.isSome
  content : ∀ k, (ht.node k).content.isSome = (ht.node k).posId.isSome
  head : ∃ l, ht.Reaches ht.headD l
  next : ∀ k, ∃ l, ht.Reaches (ht.nexts k) l
  fresh : ∀ k, (ht.node k).posId = none → ht.nexts k = none
  alloc : ∀ k, (ht.node k).posId.isSome → k ∈ ht.alloc
  fits : Fits ht

theorem Sound.new {r : Fin n} {x : Sds → X} : Sound (Ht.new r x) :=
  ⟨fun _ => rfl, fun _ => rfl, ⟨[], rfl, by simp⟩, fun _ => ⟨[], rfl, by simp⟩, fun _ _ => rfl,
    by simp [Ht.new, Node.new], fun _ _ h => by cases h⟩

variable {x : Leid} {prev : Sds} {l : List Sds}

theorem Sound.head_placed (hs : Sound ht) (q : Sds) (hq : ht.headD = some q) :
    (ht.node q).posId.isSome := by
  obtain ⟨l, hc, hl⟩ := hs.head
  exact hl q (List.mem_of_mem_head? (hc.head_eq ▸ hq))

/-- Where the search for the place of `x` ends: the run from `s` to `p` is passed, and the element
after `p` is not. -/
structure Found (ht : Ht n X) (x : Leid) (s p : Sds) : Prop where
  split : ∃ a b, Chain ht.nexts (some s) (a ++ p :: b) ∧
    (∀ q ∈ (a ++ [p]).tail, ∃ y, (ht.node q).posId = some y ∧ 0 < leidCmp x y) ∧
    ∀ q ∈ b.head?, ∃ y, (ht.node q).posId = some y ∧ ¬ 0 < leidCmp x y

/-- The search of `link` ends. -/
theorem walk_found (s : Sds) (hnext : ∃ l, ht.Reaches (ht.nexts s) l)
    (ha : ∀ k, (ht.node k).posId.isSome → k ∈ ht.alloc) :
    ∃ p, Found ht x s p ∧ walk ht.nexts (ht.after x) (ht.alloc.length + 1) s =
      some (p, ht.nexts p) := by
  obtain ⟨l, hc, hl⟩ := hnext
  have hlen : l.length ≤ ht.alloc.length :=
    (hc.nodup.subperm fun q hq => ha q (hl q hq)).length_le
  have hg : ∀ q ∈ l, ht.after x q =
      some (decide (0 < leidCmp x ((ht.node q).posId.getD []))) := by
    intro q hq
    obtain ⟨y, hy⟩ := Option.isSome_iff_exists.mp (hl q hq)
    simp [after, hy]
  obtain ⟨a, p, b, hsplit, hw, hpass, hstop⟩ := walk_eq hc hg (Nat.lt_succ_of_le hlen)
  have hc' : Chain ht.nexts (some s) (a ++ p :: b) := hsplit ▸ ⟨rfl, hc⟩
  have hl' : ∀ q ∈ (a ++ p :: b).tail, (ht.node q).posId.isSome := by
    rw [← hsplit]; exact hl
  refine ⟨p, ⟨a, b, hc', fun q hq => ?_, fun q hq => ?_⟩, by rw [hw, ← hc'.drop.head_eq]⟩
  · have hq' : q ∈ (a ++ p :: b).tail := by
      cases a with
      | nil => simp at hq
      | cons z a =>
        simp only [List.cons_append, List.tail_cons, List.mem_append,
          List.mem_cons] at hq ⊢
        tauto
    obtain ⟨y, hy⟩ := Option.isSome_iff_exists.mp (hl' q hq')
    exact ⟨y, hy, by simpa [hy] using hpass q hq⟩
  · have hq' : q ∈ (a ++ p :: b).tail := by
      have : q ∈ b := List.mem_of_mem_head? hq
      cases a <;> simp [this]
    obtain ⟨y, hy⟩ := Option.isSome_iff_exists.mp (hl' q hq')
    exact ⟨y, hy, by simpa [hy] using hstop q hq⟩

/-- What `link` does. -/
theorem link_cases (h : Typed N ht) (hp : prev ∉ N) (hhead : ∃ l, ht.Reaches ht.headD l)
    (hnext : ∀ k, ∃ l, ht.Reaches (ht.nexts k) l)
    (ha : ∀ k, (ht.node k).posId.isSome → k ∈ ht.alloc) :
    (ht.headD = none ∧ ht.link e x prev = some (ht.setHead e)) ∨
    (∃ h y, ht.headD = some h ∧ (ht.node h).posId = some y ∧ leidCmp x y < 0 ∧
      ht.link e x prev = some ((ht.setHead e).setNext e (some h))) ∨
    (∃ h y p, ht.headD = some h ∧ (ht.node h).posId = some y ∧ ¬ leidCmp x y < 0 ∧
      Found ht x (ht.startAt (if prev ∈ ht.alloc then some prev else none) h) p ∧
      ht.link e x prev = some ((ht.setNext p (some e)).setNext e (ht.nexts p))) := by
  cases hd : ht.headD with
  | none => exact .inl ⟨rfl, by simp [link, h.getHead_eq, hd]⟩
  | some h₀ =>
    obtain ⟨l, hc, hl⟩ := hhead
    have hmem : h₀ ∈ l := by
      have := hd ▸ hc.head_eq
      exact List.mem_of_mem_head? this.symm
    obtain ⟨y, hy⟩ := Option.isSome_iff_exists.mp (hl h₀ hmem)
    by_cases hlt : leidCmp x y < 0
    · exact .inr (.inl ⟨h₀, y, rfl, hy, hlt, by simp [link, h.getHead_eq, hd, hy, hlt]⟩)
    · obtain ⟨p, hf, hw⟩ := walk_found (x := x)
        (ht.startAt (if prev ∈ ht.alloc then some prev else none) h₀) (hnext _) ha
      exact .inr (.inr ⟨h₀, y, p, rfl, hy, hlt, hf, by
        simp [link, h.getHead_eq, hd, hy, hlt, h.find_eq hp, hw]⟩)

theorem Found.placed {s : Sds} (hf : Found ht x s p) (hs : (ht.node s).posId.isSome) :
    (ht.node p).posId.isSome := by
  obtain ⟨a, b, hc, hpass, -⟩ := hf.split
  cases a with
  | nil =>
    obtain rfl : s = p := by simpa using hc.head_eq
    exact hs
  | cons z a =>
    obtain ⟨y, hy, -⟩ := hpass p (by simp)
    simp [hy]

theorem startAt_placed {pre : Option Sds} {h : Sds} (hh : (ht.node h).posId.isSome) :
    (ht.node (ht.startAt pre h)).posId.isSome := by
  unfold startAt
  split
  · split <;> assumption
  · exact hh

/-! ## A new element -/

/-- A place for element `e`; its links apart, nothing else changes. -/
structure Inserted (ht ht' : Ht n X) (e id content : Sds) (x : Leid) : Prop where
  len : ht'.lenD = ht.lenD
  clock : ht'.clock = ht.clock
  alloc : ht'.alloc = ht.alloc
  body : ∀ k, (ht'.node k).body = (ht.node k).body
  oid : (fun k => (ht'.node k).oid) = Function.update (fun k => (ht.node k).oid) e (some id)
  posId : (fun k => (ht'.node k).posId) = Function.update (fun k => (ht.node k).posId) e (some x)
  content : (fun k => (ht'.node k).content) =
    Function.update (fun k => (ht.node k).content) e (some content)

/-- Element `e` with the data of its first insert. -/
def place (ht : Ht n X) (e id content : Sds) (x : Leid) : Ht n X :=
  ht.setNode e { ht.node e with oid := some id, content := some content, posId := some x }

variable {id content : Sds} {ht' : Ht n X}

theorem place_nexts : (ht.place e id content x).nexts = ht.nexts := by
  funext k
  by_cases hk : k = e
  · subst hk; simp [place, nexts]
  · simp [place, nexts, hk]

theorem Inserted.place : Inserted ht (ht.place e id content x) e id content x := by
  refine ⟨rfl, rfl, rfl, fun k => ?_, ?_, ?_, ?_⟩
  · by_cases hk : k = e
    · subst hk; simp [Ht.place]
    · simp [Ht.place, hk]
  all_goals
    funext k
    by_cases hk : k = e
    · subst hk; simp [Ht.place]
    · simp [Ht.place, hk]

theorem Inserted.setHead (h : Inserted ht ht' e id content x) (q : Sds) :
    Inserted ht (ht'.setHead q) e id content x :=
  ⟨by simp [h.len], h.clock, h.alloc, h.body, h.oid, h.posId, h.content⟩

theorem Inserted.setNext (h : Inserted ht ht' e id content x) (p : Sds) (q : Option Sds) :
    Inserted ht (ht'.setNext p q) e id content x := by
  refine ⟨h.len, h.clock, h.alloc, fun k => ?_, ?_, ?_, ?_⟩
  · rw [setNext_fields.2.2.2, h.body]
  · rw [← h.oid]; funext k; exact setNext_fields.1
  · rw [← h.posId]; funext k; exact setNext_fields.2.1
  · rw [← h.content]; funext k; exact setNext_fields.2.2.1

theorem Inserted.posId_ne {k : Sds} (h : Inserted ht ht' e id content x) (hk : k ≠ e) :
    (ht'.node k).posId = (ht.node k).posId := by
  have := congrFun h.posId k
  rwa [Function.update_of_ne hk] at this

theorem Inserted.isSome (h : Inserted ht ht' e id content x) (k : Sds) :
    (ht'.node k).posId.isSome ↔ k = e ∨ (ht.node k).posId.isSome := by
  by_cases hk : k = e
  · subst hk
    have := congrFun h.posId k
    simp at this
    simp [this]
  · simp [h.posId_ne hk, hk]

/-- What is set at the same elements as `g` still is after both get a value at `e`. -/
theorem isSome_update {A B : Type} {f : Sds → Option A} {g : Sds → Option B} (e : Sds) (a : A)
    (b : B) (h : ∀ k, (f k).isSome = (g k).isSome) (k : Sds) :
    (Function.update f e (some a) k).isSome = (Function.update g e (some b) k).isSome := by
  by_cases hk : k = e
  · subst hk; simp
  · simp only [Function.update_of_ne hk, h k]

/-- The new links of `e`: in front of the chain, or after an element with a place; or none at
all. -/
inductive NewLinks (ht ht' : Ht n X) (e : Sds) : Prop
  | front (hh : ht'.headD = some e) (hn : ht'.nexts = Function.update ht.nexts e ht.headD)
  | after (p : Sds) (hp : (ht.node p).posId.isSome) (hh : ht'.headD = ht.headD)
    (hn : ht'.nexts = Function.update (Function.update ht.nexts p (some e)) e (ht.nexts p))
  | same (hh : ht'.headD = ht.headD) (hn : ht'.nexts = ht.nexts)

/-- What a link reached, it still reaches, with `e` perhaps in between. -/
theorem NewLinks.reaches (hl : NewLinks ht ht' e) (hi : Inserted ht ht' e id content x)
    (he : (ht.node e).posId = none) {q : Option Sds} (hq : ∃ l, ht.Reaches q l) :
    ∃ l, ht'.Reaches q l := by
  obtain ⟨l, hc, hpl⟩ := hq
  have hel : e ∉ l := fun hel => by
    have := hpl e hel; simp [he] at this
  have hplaced : ∀ k ∈ l, (ht'.node k).posId.isSome := fun k hk =>
    (hi.isSome k).mpr (.inr (hpl k hk))
  cases hl with
  | front _ hn =>
    refine ⟨l, hc.congr fun k hk => ?_, hplaced⟩
    rw [hn, Function.update_of_ne (by rintro rfl; exact hel hk)]
  | after p hp _ hn =>
    have hpe : e ≠ p := by rintro rfl; simp [he] at hp
    refine ⟨insertAfter p e l, by rw [hn]; exact hc.splice hel hpe, fun k hk => ?_⟩
    rcases mem_insertAfter.mp hk with hk | ⟨rfl, -⟩
    · exact hplaced k hk
    · exact (hi.isSome k).mpr (.inl rfl)
  | same _ hn => exact ⟨l, by rw [hn]; exact hc, hplaced⟩

/-- The links still end after a new element. -/
theorem Sound.inserted (hs : Sound ht) (hi : Inserted ht ht' e id content x)
    (hl : NewLinks ht ht' e) (he : (ht.node e).posId = none) (hea : e ∈ ht.alloc)
    (hlen : x.length ≤ 1024) : Sound ht' := by
  have hkeep : ∀ {q}, (∃ l, ht.Reaches q l) → ∃ l, ht'.Reaches q l := hl.reaches hi he
  have heplaced : (ht'.node e).posId.isSome := (hi.isSome e).mpr (.inl rfl)
  have hcons : ∀ q, ht'.nexts e = q → (∃ l, ht.Reaches q l) → ∃ l, ht'.Reaches (some e) l := by
    rintro q rfl hq
    obtain ⟨l, hc, hl⟩ := hkeep hq
    exact ⟨e :: l, ⟨rfl, hc⟩, by simpa [heplaced] using hl⟩
  refine ⟨fun k => ?_, fun k => ?_, ?_, fun k => ?_, fun k hk => ?_, fun k hk => ?_,
    fun k y hy => ?_⟩
  · rw [congrFun hi.oid k, congrFun hi.posId k]
    exact isSome_update e id x hs.oid k
  · rw [congrFun hi.content k, congrFun hi.posId k]
    exact isSome_update e content x hs.content k
  · cases hl with
    | front hh hn => rw [hh]; exact hcons ht.headD (by simp [hn]) hs.head
    | after p _ hh _ => rw [hh]; exact hkeep hs.head
    | same hh _ => rw [hh]; exact hkeep hs.head
  · cases hl with
    | front hh hn =>
      by_cases hk : k = e
      · subst hk; rw [hn, Function.update_self]; exact hkeep hs.head
      · rw [hn, Function.update_of_ne hk]; exact hkeep (hs.next k)
    | after p hp hh hn =>
      by_cases hk : k = e
      · subst hk; rw [hn, Function.update_self]; exact hkeep (hs.next p)
      · by_cases hkp : k = p
        · subst hkp
          rw [hn, Function.update_of_ne hk, Function.update_self]
          exact hcons (ht.nexts k) (by simp [hn]) (hs.next k)
        · rw [hn, Function.update_of_ne hk, Function.update_of_ne hkp]; exact hkeep (hs.next k)
    | same hh hn => rw [hn]; exact hkeep (hs.next k)
  · have hke : k ≠ e := by rintro rfl; simp [hk] at heplaced
    have hk' : (ht.node k).posId = none := hi.posId_ne hke ▸ hk
    cases hl with
    | front _ hn => rw [hn, Function.update_of_ne hke]; exact hs.fresh k hk'
    | after p hp _ hn =>
      have hkp : k ≠ p := by rintro rfl; simp [hk'] at hp
      rw [hn, Function.update_of_ne hke, Function.update_of_ne hkp]; exact hs.fresh k hk'
    | same _ hn => rw [hn]; exact hs.fresh k hk'
  · rw [hi.alloc]
    rcases (hi.isSome k).mp hk with rfl | hk
    · exact hea
    · exact hs.alloc k hk
  · by_cases hk : k = e
    · subst hk
      rw [congrFun hi.posId k, Function.update_self] at hy
      obtain rfl := Option.some.inj hy
      exact hlen
    · exact hs.fits k y (hi.posId_ne hk ▸ hy)

/-- The chain from the head is `l`, and it has every element with a place. -/
structure Listed (ht : Ht n X) (l : List Sds) : Prop where
  chain : Chain ht.nexts ht.headD l
  mem : ∀ k, k ∈ l ↔ (ht.node k).posId.isSome

theorem Listed.new {r : Fin n} {x : Sds → X} : Listed (Ht.new r x) [] :=
  ⟨rfl, by simp [Ht.new, Node.new]⟩

/-- No element gets a place or a link. -/
structure Kept (ht ht' : Ht n X) : Prop where
  oid : ∀ k, (ht'.node k).oid = (ht.node k).oid
  posId : ∀ k, (ht'.node k).posId = (ht.node k).posId
  content : ∀ k, (ht'.node k).content = (ht.node k).content
  nexts : ht'.nexts = ht.nexts
  head : ht'.headD = ht.headD
  alloc : ∀ k ∈ ht.alloc, k ∈ ht'.alloc

theorem Kept.trans {ht₁ ht₂ : Ht n X} (h₁ : Kept ht ht₁) (h₂ : Kept ht₁ ht₂) : Kept ht ht₂ :=
  ⟨fun k => (h₂.oid k).trans (h₁.oid k), fun k => (h₂.posId k).trans (h₁.posId k),
    fun k => (h₂.content k).trans (h₁.content k), h₂.nexts.trans h₁.nexts, h₂.head.trans h₁.head,
    fun k hk => h₂.alloc k (h₁.alloc k hk)⟩

theorem Kept.sound (h : Kept ht ht') (hs : Sound ht) : Sound ht' := by
  have hr : ∀ q l, ht'.Reaches q l ↔ ht.Reaches q l := fun q l => by
    simp [Reaches, h.nexts, h.posId]
  refine ⟨by simpa [h.oid, h.posId] using hs.oid, by simpa [h.content, h.posId] using hs.content,
    ?_, ?_, ?_, fun k hk => h.alloc k ?_, fun k => h.posId k ▸ hs.fits k⟩
  · simpa only [hr, h.head] using hs.head
  · simpa only [hr, h.nexts] using hs.next
  · simpa only [h.nexts, h.posId] using hs.fresh
  · exact hs.alloc k (by simpa [h.posId] using hk)

theorem Kept.listed {l : List Sds} (h : Kept ht ht') (hl : Listed ht l) : Listed ht' l :=
  ⟨by rw [h.nexts, h.head]; exact hl.chain, by simpa [h.posId] using hl.mem⟩

/-- Where a new element with identifier `x` goes: before the head, or after a run of elements that
starts at `prev` or at the head and that the search passes. -/
inductive Placed (ht : Ht n X) (x : Leid) (prev e : Sds) : List Sds → List Sds → Prop
  | front (l : List Sds)
    (hlt : ∀ q ∈ l.head?, ∃ y, (ht.node q).posId = some y ∧ leidCmp x y < 0) :
    Placed ht x prev e l (e :: l)
  | after (c : List Sds) (s : Sds) (a b : List Sds)
    (hs : s = prev ∨ (c = [] ∧ ∃ y, (ht.node s).posId = some y ∧ ¬ leidCmp x y < 0))
    (hpass : ∀ q ∈ a, ∃ y, (ht.node q).posId = some y ∧ 0 < leidCmp x y)
    (hstop : ∀ q ∈ b.head?, ∃ y, (ht.node q).posId = some y ∧ ¬ 0 < leidCmp x y) :
    Placed ht x prev e (c ++ s :: (a ++ b)) (c ++ s :: (a ++ e :: b))

theorem Placed.congr {ht₀ : Ht n X} {l l' : List Sds} (h : Placed ht x prev e l l')
    (hpos : ∀ k, (ht.node k).posId = (ht₀.node k).posId) : Placed ht₀ x prev e l l' := by
  cases h with
  | front l hlt => exact .front l (by simpa only [hpos] using hlt)
  | after c s a b hs hpass hstop =>
    refine .after c s a b ?_ ?_ ?_
    · simpa only [hpos] using hs
    · simpa only [hpos] using hpass
    · simpa only [hpos] using hstop

theorem Placed.perm {l l' : List Sds} (h : Placed ht x prev e l l') : l'.Perm (e :: l) := by
  cases h with
  | front _ _ => exact .refl _
  | after c s a b _ _ _ =>
    have : (c ++ s :: a ++ e :: b).Perm (e :: (c ++ s :: a ++ b)) := List.perm_middle
    simpa using this

theorem Listed.notMem {l : List Sds} (hl : Listed ht l) (he : (ht.node e).posId = none) :
    e ∉ l := by
  rw [hl.mem, he]
  simp

theorem Listed.front {l : List Sds} (hl : Listed ht l) (hi : Inserted ht ht' e id content x)
    (he : e ∉ l) (hh : ht'.headD = some e)
    (hn : ht'.nexts = Function.update ht.nexts e ht.headD) : Listed ht' (e :: l) :=
  ⟨by rw [hh, hn]; exact hl.chain.cons_new he,
    fun k => by rw [hi.isSome, List.mem_cons, hl.mem]⟩

/-- A new element goes to the front when its place is below that of the head. -/
theorem Listed.placed_front {l : List Sds} (hl : Listed ht l) (hi : Inserted ht ht' e id content x)
    (he : (ht.node e).posId = none) (hh : ht'.headD = some e)
    (hn : ht'.nexts = Function.update ht.nexts e ht.headD)
    (hlt : ∀ q ∈ ht.headD, ∃ y, (ht.node q).posId = some y ∧ leidCmp x y < 0) :
    ∃ l', Listed ht' l' ∧ Placed ht x prev e l l' :=
  ⟨e :: l, hl.front hi (hl.notMem he) hh hn, .front l (by rw [← hl.chain.head_eq]; exact hlt)⟩

theorem Listed.after {c b : List Sds} (hl : Listed ht (c ++ p :: b))
    (hi : Inserted ht ht' e id content x) (he : e ∉ c ++ p :: b) (hh : ht'.headD = ht.headD)
    (hn : ht'.nexts = Function.update (Function.update ht.nexts p (some e)) e (ht.nexts p)) :
    Listed ht' (c ++ p :: e :: b) := by
  have hpe : e ≠ p := by rintro rfl; simp at he
  obtain ⟨hpc, hpb⟩ : p ∉ c ∧ p ∉ b := by
    have hnd := hl.chain.nodup
    rw [List.nodup_append] at hnd
    exact ⟨fun hp => hnd.2.2 p hp p (by simp) rfl, (List.nodup_cons.mp hnd.2.1).1⟩
  refine ⟨?_, fun k => ?_⟩
  · rw [hh, hn, ← insertAfter_append hpc hpb]
    exact hl.chain.splice he hpe
  · rw [hi.isSome, ← hl.mem]
    simp only [List.mem_append, List.mem_cons]
    tauto

/-- The run of the search in the chain. -/
theorem Found.listed {l : List Sds} {s : Sds} (hf : Found ht x s p) (hc : Chain ht.nexts ht.headD l)
    (hs : s ∈ l) : ∃ c a b, l = c ++ s :: (a ++ b) ∧ (∃ d, c ++ s :: a = d ++ [p]) ∧
      (∀ q ∈ a, ∃ y, (ht.node q).posId = some y ∧ 0 < leidCmp x y) ∧
      ∀ q ∈ b.head?, ∃ y, (ht.node q).posId = some y ∧ ¬ 0 < leidCmp x y := by
  obtain ⟨c, d, rfl⟩ := List.append_of_mem hs
  obtain ⟨a, b, hc', hpass, hstop⟩ := hf.split
  have hsd : s :: d = a ++ p :: b :=
    Chain.unique (h := some s) ⟨rfl, hc.drop⟩ hc'
  refine ⟨c, (a ++ [p]).tail, b, ?_, ⟨c ++ a, ?_⟩, hpass, hstop⟩
  · cases a with
    | nil => simp_all
    | cons z a => simp_all
  · cases a with
    | nil => simp_all
    | cons z a => simp_all

/-- The search starts at `prev` or at the head. -/
theorem startAt_cases (ht : Ht n X) (prev h₀ : Sds) :
    ht.startAt (if prev ∈ ht.alloc then some prev else none) h₀ = h₀ ∨
      ht.startAt (if prev ∈ ht.alloc then some prev else none) h₀ = prev ∧
        (ht.node prev).posId.isSome := by
  unfold startAt
  split
  · split
    · rename_i q heq hsome
      obtain ⟨-, rfl⟩ : prev ∈ ht.alloc ∧ prev = q := by simpa using heq
      exact .inr ⟨rfl, hsome⟩
    · exact .inl rfl
  · exact .inl rfl

/-- The place after the run of the search. -/
theorem Found.after {h₁ : Ht n X} {l : List Sds} {s h₀ : Sds} {y : Leid} (hf : Found h₁ x s p)
    (hl : Listed ht l) (hhd : h₁.headD = ht.headD) (hnx : h₁.nexts = ht.nexts)
    (hpos : ∀ k ∈ l, (h₁.node k).posId = (ht.node k).posId) (hs : s ∈ l)
    (hd : ht.headD = some h₀) (hy : (ht.node h₀).posId = some y) (hlt : ¬ leidCmp x y < 0)
    (hsc : s = prev ∨ s = h₀) :
    ∃ d b, l = d ++ p :: b ∧ Placed ht x prev e l (d ++ p :: e :: b) := by
  obtain ⟨c, a, b, rfl, ⟨d, hd'⟩, hpass, hstop⟩ := hf.listed (by rw [hnx, hhd]; exact hl.chain) hs
  have hlist : c ++ s :: (a ++ b) = d ++ p :: b := by
    have := congrArg (· ++ b) hd'
    simpa using this
  have hres : d ++ p :: e :: b = c ++ s :: (a ++ e :: b) := by
    have := congrArg (· ++ e :: b) hd'
    simpa using this.symm
  refine ⟨d, b, hlist, hres ▸ .after c s a b (hsc.imp_right ?_) ?_ ?_⟩
  · -- The head is the first element of the list, which has no element twice.
    rintro rfl
    refine ⟨?_, y, hy, hlt⟩
    cases c with
    | nil => rfl
    | cons z c =>
      obtain rfl : z = s := Option.some.inj (hl.chain.head_eq.symm.trans hd)
      exact absurd hl.chain.nodup (by simp)
  · intro q hq
    rw [← hpos q (by simp [hq])]
    exact hpass q hq
  · intro q hq
    rw [← hpos q (by simp [List.mem_of_mem_head? hq])]
    exact hstop q hq

/-- Element `id` got its place. -/
structure Added (ht ht' : Ht n X) (prev id content : Sds) (pos : Leid) : Prop where
  oid : (fun k => (ht'.node k).oid) = Function.update (fun k => (ht.node k).oid) id (some id)
  posId : (fun k => (ht'.node k).posId) =
    Function.update (fun k => (ht.node k).posId) id (some pos)
  content : (fun k => (ht'.node k).content) =
    Function.update (fun k => (ht.node k).content) id (some content)
  listed : ∀ l, Listed ht l → prev ≠ id → ∃ l', Listed ht' l' ∧ Placed ht pos prev id l l'

theorem Added.congr_left {ht₀ : Ht n X} {pos : Leid} (h : Added ht ht' prev id content pos)
    (hk : Kept ht₀ ht) : Added ht₀ ht' prev id content pos := by
  refine ⟨?_, ?_, ?_, fun l hl hne => ?_⟩
  · simpa only [hk.oid] using h.oid
  · simpa only [hk.posId] using h.posId
  · simpa only [hk.content] using h.content
  · obtain ⟨l', hl', hp⟩ := h.listed l (hk.listed hl) hne
    exact ⟨l', hl', hp.congr hk.posId⟩

theorem Added.congr_right {ht₁ : Ht n X} {pos : Leid} (h : Added ht ht' prev id content pos)
    (hk : Kept ht' ht₁) : Added ht ht₁ prev id content pos := by
  refine ⟨?_, ?_, ?_, fun l hl hne => ?_⟩
  · simpa only [hk.oid] using h.oid
  · simpa only [hk.posId] using h.posId
  · simpa only [hk.content] using h.content
  · obtain ⟨l', hl', hp⟩ := h.listed l hl hne
    exact ⟨l', hk.listed hl', hp⟩

/-- The element is linked after the run of the search. -/
theorem Found.linked {h₁ : Ht n X} {h₀ : Sds} {y : Leid} (hs : Sound ht)
    (hi : Inserted ht h₁ e id content x) (he : (ht.node e).posId = none) (hea : e ∈ ht.alloc)
    (hhd : h₁.headD = ht.headD) (hnx : h₁.nexts = ht.nexts) (hd : ht.headD = some h₀)
    (hy : (h₁.node h₀).posId = some y) (hlt : ¬ leidCmp x y < 0)
    (hlen : x.length ≤ 1024)
    (hf : Found h₁ x (h₁.startAt (if prev ∈ h₁.alloc then some prev else none) h₀) p) :
    Sound ((h₁.setNext p (some e)).setNext e (h₁.nexts p)) ∧
      ∀ l, Listed ht l → prev ≠ e → ∃ l',
        Listed ((h₁.setNext p (some e)).setNext e (h₁.nexts p)) l' ∧ Placed ht x prev e l l' := by
  have hi' := (hi.setNext p (some e)).setNext e (h₁.nexts p)
  have hh' : ((h₁.setNext p (some e)).setNext e (h₁.nexts p)).headD = ht.headD := hhd
  have hn' : ((h₁.setNext p (some e)).setNext e (h₁.nexts p)).nexts =
      Function.update (Function.update ht.nexts p (some e)) e (ht.nexts p) := by simp [hnx]
  have hplaced : ∀ k, k ≠ e → (h₁.node k).posId.isSome → (ht.node k).posId.isSome :=
    fun k hk => by rw [hi.posId_ne hk]; exact fun h => h
  refine ⟨?_, fun l hl hpe => ?_⟩
  · by_cases hpe : p = e
    · subst hpe
      exact hs.inserted hi' (.same hh' (by rw [hn']; simp)) he hea hlen
    · have hp₁ := hf.placed (startAt_placed (by simp [hy]))
      exact hs.inserted hi' (.after p (hplaced p hpe hp₁) hh' hn') he hea hlen
  · have hpos : ∀ q ∈ l, (h₁.node q).posId = (ht.node q).posId := fun q hq =>
      hi.posId_ne (by rintro rfl; exact hl.notMem he hq)
    have hmem₀ : h₀ ∈ l := List.mem_of_mem_head? (hl.chain.head_eq ▸ hd)
    have hy₀ : (ht.node h₀).posId = some y := hpos h₀ hmem₀ ▸ hy
    obtain ⟨d, b, rfl, hpl⟩ : ∃ d b, l = d ++ p :: b ∧
        Placed ht x prev e l (d ++ p :: e :: b) := by
      rcases h₁.startAt_cases prev h₀ with hst | ⟨hst, hsome⟩
      · rw [hst] at hf
        exact hf.after hl hhd hnx hpos hmem₀ hd hy₀ hlt (.inr rfl)
      · rw [hst] at hf
        exact hf.after hl hhd hnx hpos ((hl.mem prev).mpr (hplaced prev hpe hsome)) hd hy₀ hlt
          (.inl rfl)
    exact ⟨_, hl.after hi' (hl.notMem he) hh' hn', hpl⟩

/-- **A new element is put into the chain**, and nothing else changes. -/
theorem insertNew_spec {pos : Leid} (id content : Sds) (h : Typed N ht) (hs : Sound ht)
    (hp : prev ∉ N) (he : (ht.node e).posId = none) (hea : e ∈ ht.alloc)
    (hlen : pos.length ≤ 1024) :
    ∃ ht', ht.insertNew e id content prev pos = some ht' ∧ Typed N ht' ∧ Sound ht' ∧
      Inserted ht ht' e id content pos ∧
      ∀ l, Listed ht l → prev ≠ e → ∃ l', Listed ht' l' ∧ Placed ht pos prev e l l' := by
  have heq : ht.insertNew e id content prev pos = (ht.place e id content pos).link e pos prev := by
    simp [insertNew, readLeid, hlen, place]
  have hi : Inserted ht (ht.place e id content pos) e id content pos := .place
  have ht₁ : Typed N (ht.place e id content pos) := h.setNode _
  have hhd : (ht.place e id content pos).headD = ht.headD := rfl
  have hnx : (ht.place e id content pos).nexts = ht.nexts := place_nexts
  rw [heq]
  generalize ht.place e id content pos = h₁ at *
  have hlift : ∀ q, (∃ l, ht.Reaches q l) → ∃ l, h₁.Reaches q l := by
    rintro q ⟨l, hc, hl⟩
    exact ⟨l, by rw [hnx]; exact hc, fun k hk => (hi.isSome k).mpr (.inr (hl k hk))⟩
  rcases link_cases (e := e) (x := pos) ht₁ hp (hhd ▸ hlift _ hs.head)
      (fun k => by rw [hnx]; exact hlift _ (hs.next k))
      (fun k hk => by
        rw [hi.alloc]
        exact ((hi.isSome k).mp hk).elim (fun hk => hk ▸ hea) (hs.alloc k)) with
    ⟨hd, hr⟩ | ⟨h₀, y, hd, hy, hlt, hr⟩ | ⟨h₀, y, p, hd, hy, hlt, hf, hr⟩
  · -- The first element.
    rw [hhd] at hd
    have hi' := hi.setHead e
    have hn' : (h₁.setHead e).nexts = Function.update ht.nexts e ht.headD := by
      simp [hnx, hd, hs.fresh e he]
    have hlt : ∀ q ∈ ht.headD, ∃ y, (ht.node q).posId = some y ∧ leidCmp pos y < 0 := by simp [hd]
    exact ⟨_, hr, ht₁.setHead, hs.inserted hi' (.front (by simp) hn') he hea hlen, hi',
      fun l hl _ => hl.placed_front hi' he (by simp) hn' hlt⟩
  · -- Before the head.
    rw [hhd] at hd
    have hne : h₀ ≠ e := by
      rintro rfl
      simpa [he] using hs.head_placed h₀ hd
    have hi' := (hi.setHead e).setNext e (some h₀)
    have hh' : ((h₁.setHead e).setNext e (some h₀)).headD = some e := by simp [setNext]
    have hn' : ((h₁.setHead e).setNext e (some h₀)).nexts =
        Function.update ht.nexts e ht.headD := by simp [hnx, hd]
    have hlt' : ∀ q ∈ ht.headD, ∃ y, (ht.node q).posId = some y ∧ leidCmp pos y < 0 := by
      rintro q hq
      obtain rfl : h₀ = q := by simpa [hd] using hq
      exact ⟨y, hi.posId_ne hne ▸ hy, hlt⟩
    exact ⟨_, hr, ht₁.setHead.setNode _, hs.inserted hi' (.front hh' hn') he hea hlen, hi',
      fun l hl _ => hl.placed_front hi' he hh' hn' hlt'⟩
  · -- After the run of the search.
    obtain ⟨hs', hl'⟩ := hf.linked hs hi he hea hhd hnx (hhd ▸ hd) hy hlt hlen
    exact ⟨_, hr, (ht₁.setNode _).setNode _, hs', (hi.setNext p _).setNext e _, hl'⟩

/-! ## Other fields of an element -/

/-- The other fields of element `e` become `y` and the length grows by `d`. -/
structure BodyStep (ht ht' : Ht n X) (e : Sds) (y : X) (d : ℤ) : Prop where
  node : ht'.node = Function.update ht.node e { ht.node e with body := y }
  head : ht'.headD = ht.headD
  len : ht'.lenD = ht.lenD + d
  clock : ht'.clock = ht.clock
  alloc : ht'.alloc = ht.alloc

theorem BodyStep.setBody (y : X) : BodyStep ht (ht.setBody e y) e y 0 :=
  ⟨rfl, rfl, by simp [Ht.setBody], rfl, rfl⟩

theorem BodyStep.refl : BodyStep ht ht e (ht.node e).body 0 :=
  ⟨by simp, rfl, by simp, rfl, rfl⟩

theorem BodyStep.setLen {y : X} {d v : ℤ} (h : BodyStep ht ht' e y d) :
    BodyStep ht (ht'.setLen (ht'.lenD + v)) e y (d + v) :=
  ⟨h.node, by simp [h.head], by simp [h.len, add_assoc], h.clock, h.alloc⟩

theorem BodyStep.body {y : X} {d : ℤ} (h : BodyStep ht ht' e y d) (k : Sds) :
    (ht'.node k).body = if k = e then y else (ht.node k).body := by
  by_cases hk : k = e
  · subst hk; simp [h.node]
  · simp [h.node, hk]

theorem BodyStep.kept {y : X} {d : ℤ} (h : BodyStep ht ht' e y d) : Kept ht ht' := by
  have hf : ∀ k, (ht'.node k).oid = (ht.node k).oid ∧ (ht'.node k).posId = (ht.node k).posId ∧
      (ht'.node k).content = (ht.node k).content ∧ (ht'.node k).next = (ht.node k).next := by
    intro k
    by_cases hk : k = e
    · subst hk; simp [h.node]
    · simp [h.node, hk]
  exact ⟨fun k => (hf k).1, fun k => (hf k).2.1, fun k => (hf k).2.2.1,
    funext fun k => (hf k).2.2.2, h.head, by simp [h.alloc]⟩

/-! ## The prepare phase of an insert -/

/-- The entries may change, but not what they lead to. -/
structure SameList (ht ht' : Ht n X) : Prop where
  node : ht'.node = ht.node
  head : ht'.headD = ht.headD
  len : ht'.lenD = ht.lenD
  alloc : ∀ k ∈ ht.alloc, k ∈ ht'.alloc

theorem SameList.refl (ht : Ht n X) : SameList ht ht := ⟨rfl, rfl, rfl, fun _ h => h⟩

theorem SameList.withEle (h : Typed N ht) (hk : k ∉ N) : SameList ht (ht.withEle k) :=
  ⟨by simp, withEle_headD (h.ne_head hk), withEle_lenD (h.ne_length hk),
    fun p hp => (h.mem_withEle hk).mpr (.inr hp)⟩

theorem SameList.withClock (ht : Ht n X) : SameList ht ht.withClock :=
  ⟨rfl, by simp, by simp, fun _ h => h⟩

theorem SameList.withOps (ht : Ht n X) : SameList ht ht.withOps :=
  ⟨rfl, by simp, by simp, fun _ h => h⟩

theorem SameList.setClock (ht : Ht n X) (c : Clock n) : SameList ht (ht.setClock c) :=
  ⟨rfl, rfl, rfl, fun _ h => h⟩

theorem SameList.kept (h : SameList ht ht') : Kept ht ht' :=
  ⟨by simp [h.node], by simp [h.node], by simp [h.node], by funext p; simp [nexts, h.node],
    h.head, h.alloc⟩

theorem SameList.trans {ht₁ ht₂ : Ht n X} (h₁ : SameList ht ht₁) (h₂ : SameList ht₁ ht₂) :
    SameList ht ht₂ :=
  ⟨h₂.node.trans h₁.node, h₂.head.trans h₁.head, h₂.len.trans h₁.len,
    fun k hk => h₂.alloc k (h₁.alloc k hk)⟩

/-- The prepare phase of an insert has a result and leaves the list as it was; it replies with an
error or goes on with a name, the element `e` and an identifier with `Q`. -/
def Prepared (N : List Sds) (ht : Ht n X) (e : Sds) (Q : Ht n X → Sds → Leid → Prop)
    (out : Option (Ht n X × Except ReplyErr (Sds × Sds × Leid))) : Prop :=
  ∃ ht' res, out = some (ht', res) ∧ Typed N ht' ∧ SameList ht ht' ∧
    ((∃ err, res = .error err ∧ ht'.clock = ht.clock) ∨
      ∃ prev pos, res = .ok (prev, e, pos) ∧ Q ht' prev pos)

theorem Prepared.error {Q : Ht n X → Sds → Leid → Prop} (h : Typed N ht) (err : ReplyErr) :
    Prepared N ht e Q (some (ht, .error err)) :=
  ⟨ht, .error err, rfl, h, .refl ht, .inl ⟨err, rfl, rfl⟩⟩

/-- The identifier on the right of a new element: of the element after `prev`, or of the first one
if `prev` has no place. -/
def rightOf (ht : Ht n X) (prev : Sds) : Option Leid :=
  (if (ht.node prev).posId.isSome then (ht.node prev).next else ht.headD).bind fun q =>
    (ht.node q).posId

/-- The identifier that is sent: of a new element, made with the list's clock, which then ticks;
or the one that the element has. -/
structure PosSent (present : X → Bool) (tick : Clock n → Clock n) (ht ht' : Ht n X)
    (left right : Option Leid) (id : Sds) (rand : ℕ) (prev : Sds) (pos : Leid) : Prop where
  absent : present (ht.node id).body = false
  sent : ((ht.node id).oid = none ∧ strEq prev readdWord = false ∧ ht'.clock = tick ht.clock ∧
      pos = constructLeid left right ht.clock rand) ∨
    ((ht.node id).posId = some pos ∧ strEq prev readdWord = true ∧ ht'.clock = ht.clock)

variable {present : X → Bool} {tick : Clock n → Clock n} {rand : ℕ}

/-- What is sent fits the decoder's buffer exactly if a new element finds room between its
neighbours. -/
theorem PosSent.fits_iff {left right : Option Leid} {pos : Leid}
    (h : PosSent present tick ht ht' left right id rand prev pos) (hs : Sound ht) :
    pos.length ≤ 1024 ↔ ((ht.node id).oid = none → RoomInBuffer left right) := by
  rcases h.sent with ⟨hoid, -, -, rfl⟩ | ⟨hpos, -⟩
  · rw [constructLeid_fits]
    exact ⟨fun hroom _ => hroom, fun hroom => hroom hoid⟩
  · have hplace := hs.oid id
    rw [hpos, Option.isSome_some] at hplace
    refine ⟨fun _ hoid => ?_, fun _ => hs.fits id pos hpos⟩
    rw [hoid] at hplace
    cases hplace

theorem insertPos_spec {pre : Option Sds} {left right : Option Leid} (h : Typed N ht)
    (hs : Sound ht) (hnb : ht.neighbours pre = some (left, right)) :
    Prepared N ht e (fun ht' prev' pos => prev' = prev ∧
        PosSent present tick ht ht' left right e rand prev pos)
      (ht.insertPos present tick pre prev id e rand) := by
  unfold insertPos
  split
  · exact .error h _
  · rename_i hpres
    split
    · rename_i hoid
      split
      · exact .error h _
      · rename_i hre
        simp only [hnb, Option.bind_some, h.getCurrent_eq, Option.map_some]
        exact ⟨_, _, rfl, h.withClock.setClock _, ⟨rfl, by simp, by simp, fun _ h => h⟩,
          .inr ⟨_, _, rfl, rfl, by simpa using hpres, .inl ⟨by simpa using hoid, by simpa using hre,
            rfl, rfl⟩⟩⟩
    · rename_i hoid
      split
      · exact .error h _
      · rename_i hre
        have hpos : (ht.node e).posId.isSome := by
          rw [← hs.oid]; simpa [Option.isSome_iff_ne_none] using hoid
        obtain ⟨x, hx⟩ := Option.isSome_iff_exists.mp hpos
        exact ⟨ht, .ok (prev, e, x), by simp [hx], h, .refl ht,
          .inr ⟨_, x, rfl, rfl, by simpa using hpres, .inr ⟨hx, by simpa using hre, rfl⟩⟩⟩

/-- The element named by an insert is in the list, or there is none with this name. -/
def PrevSent (present : X → Bool) (ht : Ht n X) (prev prev' : Sds) : Prop :=
  (prev' = prev ∧ (ht.node prev).posId.isSome ∧ present (ht.node prev).body) ∨
  (prev' = sdstolower prev ∧ (ht.node prev).posId = none ∧
    (strEq prev' nullWord ∨ strEq prev' readdWord))

/-- The neighbours do not depend on the entries of elements. -/
theorem neighbours_withEle (h : Typed N ht) (hk : k ∉ N) (pre : Option Sds) :
    (ht.withEle k).neighbours pre = ht.neighbours pre := by
  cases pre with
  | none => simp [neighbours, h.getHead_eq, (h.withEle hk).getHead_eq, withEle_headD (h.ne_head hk)]
  | some p => simp [neighbours]

/-- **What the prepare phase of an insert does.** -/
theorem prepareInsert_spec (present : X → Bool) (tick : Clock n → Clock n) (rand : ℕ)
    (h : Typed N ht) (hs : Sound ht) (hp : prev ∉ N) (hid : id ∉ N) :
    Prepared N ht id (fun ht' prev' pos => PrevSent present ht prev prev' ∧
        PosSent present tick ht ht' (ht.node prev).posId (ht.rightOf prev) id rand prev' pos)
      (ht.prepareInsert present tick prev id rand) := by
  -- The rest, once `prev` is accepted as `prev'`.
  have hrest : ∀ pre prev', ht.neighbours pre = some ((ht.node prev).posId, ht.rightOf prev) →
      PrevSent present ht prev prev' →
      Prepared N ht id (fun ht' prev' pos => PrevSent present ht prev prev' ∧
        PosSent present tick ht ht' (ht.node prev).posId (ht.rightOf prev) id rand prev' pos)
      ((ht.create id).bind fun (ht, e) => ht.insertPos present tick pre prev' id e rand) := by
    intro pre prev' hnb hprev
    rw [h.create_eq hid]
    have hsame := SameList.withEle h hid
    obtain ⟨ht', res, hr, ht'', hsame', hres⟩ : Prepared N (ht.withEle id) id _
        ((ht.withEle id).insertPos present tick pre prev' id id rand) :=
      insertPos_spec (h.withEle hid) (hsame.kept.sound hs) (by rw [neighbours_withEle h hid, hnb])
    refine ⟨ht', res, hr, ht'', hsame.trans hsame', ?_⟩
    rcases hres with ⟨err, rfl, hc⟩ | ⟨p₁, pos, rfl, hp₁, hsent⟩
    · exact .inl ⟨err, rfl, by simpa using hc⟩
    · refine .inr ⟨p₁, pos, rfl, hp₁ ▸ hprev, hp₁ ▸ ⟨?_, ?_⟩⟩
      · simpa using hsent.absent
      · simpa using hsent.sent
  unfold prepareInsert
  rw [h.find_eq hp]
  by_cases hpa : prev ∈ ht.alloc
  · simp only [if_pos hpa, Option.bind_some, Option.isNone_some, Bool.false_and,
      Bool.false_eq_true, if_false, Option.any_some]
    split
    · exact .error h _
    · rename_i hpre
      simp only [Bool.or_eq_true, Bool.not_eq_true', not_or, Bool.not_eq_false,
        Option.isNone_iff_eq_none, ← Option.isSome_iff_ne_none] at hpre
      refine hrest _ _ ?_ (.inl ⟨rfl, hpre.2, hpre.1⟩)
      simp only [neighbours, rightOf, if_pos hpre.2]
  · have hnone : (ht.node prev).posId = none := by
      by_contra hne
      exact hpa (hs.alloc prev (Option.isSome_iff_ne_none.mpr hne))
    simp only [if_neg hpa, Option.bind_some, Option.isNone_none, Bool.true_and, if_true,
      Option.any_none, Bool.false_eq_true, if_false]
    split
    · exact .error h _
    · rename_i hpre
      refine hrest _ _ ?_ (.inr ⟨rfl, hnone, ?_⟩)
      · simp [neighbours, rightOf, h.getHead_eq, hnone]
      cases hw : strEq (sdstolower prev) nullWord
      · exact .inr (by simpa [hw] using hpre)
      · exact .inl rfl

end Ht

/-- The list has room for the command: an insert of an element without a place finds it between the
neighbours. -/
def LCmd.FindsRoom (ht : Ht n X) : LCmd → Prop
  | .insert _ prev id .. => (ht.node id).oid = none →
      RoomInBuffer (ht.node prev).posId (ht.rightOf prev)
  | .update .. | .rem .. => True

/-- A test for `LCmd.FindsRoom`: the neighbours leave one position of the buffer free. -/
def LCmd.findsRoomOk (ht : Ht n X) : LCmd → Bool
  | .insert _ prev id .. => (ht.node id).oid.isSome ||
      ((ht.node prev).posId.all (·.length < 1024) && (ht.rightOf prev).all (·.length < 1024))
  | .update .. | .rem .. => true

theorem LCmd.findsRoom_of_ok {ht : Ht n X} {o : LCmd} (h : o.findsRoomOk ht = true) :
    o.FindsRoom ht := by
  cases o with
  | insert argc prev id content font size color property rand =>
    intro hoid
    simp only [LCmd.findsRoomOk, hoid, Option.isSome_none, Bool.false_or, Bool.and_eq_true,
      Option.all_eq_true, decide_eq_true_eq] at h
    exact roomInBuffer_of_length h.1 h.2
  | update argc id type value => trivial
  | rem argc id => trivial

end CrdtRedis
