import CrdtRedis.Crdt
import CrdtRedis.SkipLanes
import Mathlib.Data.Char
import Mathlib.Data.List.Lex
import Mathlib.Data.Prod.Lex

/-!
# The skip list of a sorted set (`t_zset.c`)

The nodes of a `zskiplist` are in a heap of their own: a pointer is an address, and a function has
no result where it follows a pointer to a node that is not there, or reads a level that a node does
not have. Addresses are handed out in order and not again. Scores are of any linear order (a score
is never NaN here). Counters do not wrap: `span` and the ranks are integers, as the code decrements
a `span` of 0 before it adds to it.

`Core z L D` says that `z` holds the entries `L`, in this order, in all its lanes: the links and
spans of every level, the links back, the tail, the length, and that its nodes are all that is
allocated besides the nodes `D` that were taken out and not freed. `zslSearch_spec` is the search of
every operation: it finds the last node before a place in every lane, and its rank.
-/

namespace CrdtRedis

open SkipLanes

variable {S : Type}

/-! ## Strings -/

/-- `memcmp` over the length of the shorter string. -/
def memcmp : Sds → Sds → ℤ
  | a :: s, b :: t => if a = b then memcmp s t else a.toNat - b.toNat
  | _, _ => 0

/-- `sdscmp`. -/
def sdscmp (s₁ s₂ : Sds) : ℤ :=
  let cmp := memcmp s₁ s₂
  if cmp = 0 then
    if s₂.length < s₁.length then 1 else if s₁.length < s₂.length then -1 else 0
  else cmp

theorem toNat_lt {a b : Char} : a.toNat < b.toNat ↔ a < b := Iff.rfl

theorem toNat_sub_ne {a b : Char} (h : a ≠ b) : (a.toNat : ℤ) - b.toNat ≠ 0 := by
  intro h0
  exact h (Char.toNat_inj.mp (by omega))

/-- `sdscmp` is the order of the dictionary. -/
theorem sdscmp_neg {s t : Sds} : sdscmp s t < 0 ↔ s < t := by
  induction s generalizing t with
  | nil => cases t <;> simp [sdscmp, memcmp]
  | cons a s ih =>
    cases t with
    | nil => simp [sdscmp, memcmp]
    | cons b t =>
      rw [List.cons_lt_cons_iff]
      by_cases hab : a = b
      · subst hab
        rw [← ih]
        simp [sdscmp, memcmp]
      · simp [sdscmp, memcmp, hab, toNat_sub_ne hab, toNat_lt]

theorem sdscmp_eq_zero {s t : Sds} : sdscmp s t = 0 ↔ s = t := by
  induction s generalizing t with
  | nil => cases t <;> simp [sdscmp, memcmp]
  | cons a s ih =>
    cases t with
    | nil => simp [sdscmp, memcmp]
    | cons b t =>
      by_cases hab : a = b
      · subst hab
        rw [List.cons.injEq, ← ih]
        simp [sdscmp, memcmp]
      · simp [sdscmp, memcmp, hab, toNat_sub_ne hab]

theorem sdscmp_nonpos {s t : Sds} : sdscmp s t ≤ 0 ↔ s ≤ t := by
  rw [Int.le_iff_lt_or_eq, sdscmp_neg, sdscmp_eq_zero]
  exact le_iff_lt_or_eq.symm

/-! ## Nodes -/

/-- `struct zskiplistLevel`. -/
abbrev ZskiplistLevel := Jump ℕ

/-- `zskiplistNode`. Only the header has no element. -/
structure ZskiplistNode (S : Type) where
  ele : Option Sds
  score : S
  backward : Option ℕ
  level : List ZskiplistLevel

/-- `zskiplist`, with the memory of its nodes. -/
structure Zskiplist (S : Type) where
  header : ℕ
  tail : Option ℕ
  length : ℕ
  level : ℕ
  heap : ℕ → Option (ZskiplistNode S)
  /-- No node from this address on. -/
  brk : ℕ

namespace Zskiplist

/-- `p->level[i]`. -/
def lev (z : Zskiplist S) (i p : ℕ) : Option ZskiplistLevel := (z.heap p).bind (·.level[i]?)

/-- The list with the node `n` at `p`. -/
def put (z : Zskiplist S) (p : ℕ) (n : ZskiplistNode S) : Zskiplist S :=
  { z with heap := Function.update z.heap p (some n) }

/-- Assignment to `p->level[i]`. -/
def setLev (z : Zskiplist S) (i p : ℕ) (v : ZskiplistLevel) : Option (Zskiplist S) := do
  let n ← z.heap p
  guard (i < n.level.length)
  some (z.put p { n with level := n.level.set i v })

/-- Assignment to `p->backward`. -/
def setBackward (z : Zskiplist S) (p : ℕ) (b : Option ℕ) : Option (Zskiplist S) := do
  let n ← z.heap p
  some (z.put p { n with backward := b })

/-- Assignment to `p->score`. -/
def setScore (z : Zskiplist S) (p : ℕ) (score : S) : Option (Zskiplist S) := do
  let n ← z.heap p
  some (z.put p { n with score := score })

end Zskiplist

/-- `ZSKIPLIST_MAXLEVEL`. -/
def zskiplistMaxlevel : ℕ := 32

/-- `zslCreateNode`. The levels are not initialised; `zslInsert` writes each before it reads it. -/
def zslCreateNode (z : Zskiplist S) (level : ℕ) (score : S) (ele : Option Sds) :
    Zskiplist S × ℕ :=
  ({ z with
      heap := Function.update z.heap z.brk
        (some ⟨ele, score, none, List.replicate level ⟨none, 0⟩⟩)
      brk := z.brk + 1 }, z.brk)

/-- `zslCreate`. -/
def zslCreate [Zero S] : Zskiplist S :=
  let z := (zslCreateNode ⟨0, none, 0, 1, fun _ => none, 0⟩ zskiplistMaxlevel 0 none)
  { z.1 with header := z.2 }

/-- `zslFreeNode`. -/
def zslFreeNode (z : Zskiplist S) (node : ℕ) : Option (Zskiplist S) := do
  let _ ← z.heap node
  some { z with heap := Function.update z.heap node none }

/-- `zslRandomLevel`, from the numbers that `random` draws. The loop goes on below
`ZSKIPLIST_P * 0xFFFF`, a quarter. -/
def zslRandomLevel (random : List ℕ) : ℕ :=
  let level := 1 + (random.takeWhile fun r => 4 * (r &&& 0xFFFF) < 0xFFFF).length
  if level < zskiplistMaxlevel then level else zskiplistMaxlevel

/-! ## The search

Every operation starts with the same two loops: in each lane from the top, go forward while the next
node passes a test. The test sees the score and the element of that node and its rank. `update[i]`
is where the search left lane `i`; the ranks beside it are kept by `zslInsert` only. -/

section Search

variable (z : Zskiplist S) (pass : S → Option Sds → ℤ → Bool)

/-- The inner loop, in lane `i`. -/
def zslWalk (i : ℕ) : ℕ → ℕ → ℤ → Option (ℕ × ℤ)
  | 0, _, _ => none
  | fuel + 1, x, rank => do
    let l ← z.lev i x
    match l.forward with
    | none => some (x, rank)
    | some y => do
      let n ← z.heap y
      if pass n.score n.ele (rank + l.span) then zslWalk i fuel y (rank + l.span)
      else some (x, rank)

/-- The outer loop, from lane `i - 1` down. -/
def zslDescend : ℕ → ℕ → ℤ → Option (List (ℕ × ℤ))
  | 0, _, _ => some []
  | i + 1, x, rank => do
    let (x, rank) ← zslWalk z pass i (z.length + 1) x rank
    let update ← zslDescend i x rank
    some (update ++ [(x, rank)])

/-- `update` and `rank`, lane by lane. -/
def zslSearch : Option (List (ℕ × ℤ)) := zslDescend z pass z.level z.header 0

/-- The outer loop where it returns as soon as a test holds after a lane. -/
def zslDescendUntil (stop : Option Sds → ℤ → Bool) : ℕ → ℕ → ℤ → Option (Option (ℕ × ℤ))
  | 0, _, _ => some none
  | i + 1, x, rank => do
    let (x, rank) ← zslWalk z pass i (z.length + 1) x rank
    let n ← z.heap x
    if stop n.ele rank then some (some (x, rank)) else zslDescendUntil stop i x rank

end Search

/-! ## Tests of the keys -/

/-- The test of `zslInsert`, `zslDelete` and `zslUpdateScore`. -/
def zslBefore [LinearOrder S] (score : S) (ele : Sds) (s : S) (e : Option Sds) (_ : ℤ) : Bool :=
  s < score || (s = score && e.any fun e => sdscmp e ele < 0)

/-- The test of `zslGetRank`. -/
def zslUpTo [LinearOrder S] (score : S) (ele : Sds) (s : S) (e : Option Sds) (_ : ℤ) : Bool :=
  s < score || (s = score && e.any fun e => sdscmp e ele ≤ 0)

/-! ## Insertion -/

/-- `update[i]->level[i].span = zsl->length`, for the header. -/
def zslRaiseLane (z : Zskiplist S) (i : ℕ) : Option (Zskiplist S) := do
  let l ← z.lev i z.header
  z.setLev i z.header { l with span := z.length }

/-- The levels that the list does not have yet start at the header. -/
def zslRaise (z : Zskiplist S) (update : List (ℕ × ℤ)) (level : ℕ) :
    Option (Zskiplist S × List (ℕ × ℤ)) :=
  if z.level < level then do
    let z' ← (List.range' z.level (level - z.level)).foldlM zslRaiseLane z
    some ({ z' with level := level }, update ++ List.replicate (level - z.level) (z.header, 0))
  else some (z, update)

/-- The new node `x` after `update[i]`. -/
def zslLink (x : ℕ) (update : List (ℕ × ℤ)) (z : Zskiplist S) (i : ℕ) : Option (Zskiplist S) := do
  let (_, rank₀) ← update[0]?
  let (u, rank) ← update[i]?
  let l ← z.lev i u
  let z ← z.setLev i x ⟨l.forward, l.span - (rank₀ - rank)⟩
  z.setLev i u ⟨some x, rank₀ - rank + 1⟩

/-- Increment the span of an untouched level. -/
def zslBump (update : List (ℕ × ℤ)) (z : Zskiplist S) (i : ℕ) : Option (Zskiplist S) := do
  let (u, _) ← update[i]?
  let l ← z.lev i u
  z.setLev i u { l with span := l.span + 1 }

/-- The link back of the node `p`, or the tail where there is none. -/
def zslBackTo (z : Zskiplist S) (p b : Option ℕ) : Option (Zskiplist S) :=
  match p with
  | some p => z.setBackward p b
  | none => some { z with tail := b }

/-- `zslInsert`: the list and the new node. -/
def zslInsert [LinearOrder S] (z : Zskiplist S) (random : List ℕ) (score : S) (ele : Sds) :
    Option (Zskiplist S × ℕ) := do
  let update ← zslSearch z (zslBefore score ele)
  let level := zslRandomLevel random
  let (z, update) ← zslRaise z update level
  let (z, x) := zslCreateNode z level score (some ele)
  let z ← (List.range level).foldlM (zslLink x update) z
  let z ← (List.range' level (z.level - level)).foldlM (zslBump update) z
  let (u, _) ← update[0]?
  let z ← z.setBackward x (if u = z.header then none else some u)
  let l ← z.lev 0 x
  let z ← zslBackTo z l.forward (some x)
  some ({ z with length := z.length + 1 }, x)

/-! ## Deletion -/

/-- Lane `i` without the node `x`. -/
def zslUnlink (x : ℕ) (update : List ℕ) (z : Zskiplist S) (i : ℕ) : Option (Zskiplist S) := do
  let u ← update[i]?
  let l ← z.lev i u
  if l.forward = some x then do
    let m ← z.lev i x
    z.setLev i u ⟨m.forward, l.span + (m.span - 1)⟩
  else z.setLev i u { l with span := l.span - 1 }

/-- The level without the empty lanes at the top. -/
def zslLower (z : Zskiplist S) : ℕ → Option ℕ
  | 0 => some 0
  | 1 => some 1
  | i + 2 => do
    let l ← z.lev (i + 1) z.header
    if l.forward = none then zslLower z (i + 1) else some (i + 2)

/-- `zslDeleteNode`. The node itself is not freed. -/
def zslDeleteNode (z : Zskiplist S) (x : ℕ) (update : List ℕ) : Option (Zskiplist S) := do
  let z ← (List.range z.level).foldlM (zslUnlink x update) z
  let n ← z.heap x
  let l ← z.lev 0 x
  let z ← zslBackTo z l.forward n.backward
  let level ← zslLower z z.level
  some { z with level := level, length := z.length - 1 }

/-- `zslDelete`. With `keep` (the argument `node` is not NULL) the node is not freed. -/
def zslDelete [LinearOrder S] (z : Zskiplist S) (score : S) (ele : Sds) (keep : Bool) :
    Option (Zskiplist S × Option ℕ) := do
  let update ← zslSearch z (zslBefore score ele)
  let (u, _) ← update[0]?
  let l ← z.lev 0 u
  match l.forward with
  | none => some (z, none)
  | some x => do
    let n ← z.heap x
    if score = n.score ∧ n.ele.map (sdscmp · ele) = some 0 then do
      let z ← zslDeleteNode z x (update.map Prod.fst)
      let z ← if keep then some z else zslFreeNode z x
      some (z, some x)
    else some (z, none)

/-- A test of the score of a node, true of no node. -/
def scoreOf (z : Zskiplist S) (p : Option ℕ) (test : S → Bool) : Option Bool :=
  match p with
  | none => some true
  | some p => do
    let n ← z.heap p
    some (test n.score)

/-- `zslUpdateScore`: the list and the node of the element. -/
def zslUpdateScore [LinearOrder S] (z : Zskiplist S) (random : List ℕ) (curscore : S)
    (ele : Sds) (newscore : S) : Option (Zskiplist S × ℕ) := do
  let update ← zslSearch z (zslBefore curscore ele)
  let (u, _) ← update[0]?
  let x ← (← z.lev 0 u).forward
  let n ← z.heap x
  guard (curscore = n.score ∧ n.ele.map (sdscmp · ele) = some 0)
  let l ← z.lev 0 x
  let back ← scoreOf z n.backward (· < newscore)
  let here ← if back then scoreOf z l.forward (newscore < ·) else some false
  if here then do
    let z ← z.setScore x newscore
    some (z, x)
  else do
    let z ← zslDeleteNode z x (update.map Prod.fst)
    let ele ← n.ele
    let (z, y) ← zslInsert z random newscore ele
    -- The string moved to the new node: `x->ele = NULL`.
    let z ← zslFreeNode z x
    some (z, y)

/-! ## Ranks -/

/-- `zslGetRank`: 0 where the element cannot be found. -/
def zslGetRank [LinearOrder S] (z : Zskiplist S) (score : S) (ele : Sds) : Option ℤ := do
  let found ← zslDescendUntil z (zslUpTo score ele)
    (fun e _ => e.any fun e => sdscmp e ele = 0) z.level z.header 0
  some (found.elim 0 (·.2))

/-! ## What a skip list holds -/

/-- The order of the entries: by score, then by element. -/
abbrev Key (S : Type) := S ×ₗ Sds

/-- A node with its key. -/
abbrev Entry (S : Type) := Tower ℕ (Key S)

/-- The part of a skip list that is not in the lanes. Of a node it has the element, the score, the
number of levels (`body`) and the link back. -/
structure Frame (S : Type) where
  header : ℕ
  tail : Option ℕ
  length : ℕ
  level : ℕ
  brk : ℕ
  body : ℕ → Option (Option Sds × S × ℕ)
  back : ℕ → Option (Option ℕ)

def Zskiplist.frame (z : Zskiplist S) : Frame S where
  header := z.header
  tail := z.tail
  length := z.length
  level := z.level
  brk := z.brk
  body p := (z.heap p).map fun n => (n.ele, n.score, n.level.length)
  back p := (z.heap p).map (·.backward)

variable [Zero S]

/-- The header is in every lane. -/
def Frame.head (f : Frame S) : Entry S := ⟨f.header, zskiplistMaxlevel, toLex (0, [])⟩

/-- All nodes, the header first. -/
def Frame.nodes (f : Frame S) (L : List (Entry S)) : List (Entry S) := f.head :: L

theorem Frame.nodes_perm (f : Frame S) (A B : List (Entry S)) (x : Entry S) :
    (f.nodes (A ++ x :: B)).Perm (x :: f.nodes (A ++ B)) := by
  rw [Frame.nodes, Frame.nodes, ← List.cons_append, ← List.cons_append]
  exact List.perm_middle

/-- The nodes of a skip list, without the lanes. -/
structure Shape (f : Frame S) (L : List (Entry S)) (D : List ℕ) : Prop where
  head : f.body f.header = some (none, 0, zskiplistMaxlevel)
  headBack : f.back f.header = some none
  body : ∀ e ∈ L, f.body e.ptr = some (some (ofLex e.key).2, (ofLex e.key).1, e.height)
  nodup : ((f.nodes L).map Tower.ptr).Nodup
  height : ∀ e ∈ L, 1 ≤ e.height ∧ e.height ≤ f.level
  level : 1 ≤ f.level ∧ f.level ≤ zskiplistMaxlevel
  back : Back f.back none L
  tail : f.tail = lastPtr none L
  length : f.length = L.length
  owned : ∀ p, (f.body p).isSome ↔ p ∈ (f.nodes L).map Tower.ptr ∨ p ∈ D
  detached : ∀ p ∈ D, p ∉ (f.nodes L).map Tower.ptr
  fresh : ∀ p, f.brk ≤ p → f.body p = none

/-- The skip list holds the entries `L`; the nodes `D` are out of it but not freed. -/
structure Core (z : Zskiplist S) (L : List (Entry S)) (D : List ℕ) : Prop where
  shape : Shape z.frame L D
  lane : ∀ i < z.level, Lane (z.lev i) i (z.frame.nodes L)
  /-- The header has no links above the level. -/
  top : ∀ i, z.level ≤ i → i < zskiplistMaxlevel →
    ∃ l, z.lev i z.header = some l ∧ l.forward = none

/-- The link of a node in one of its lanes. -/
theorem Core.link {z : Zskiplist S} {A B : List (Entry S)} {D : List ℕ} {x : Entry S} {i : ℕ}
    (hc : Core z (A ++ x :: B) D) (hi : i < x.height) : z.lev i x.ptr = some (hop i B) := by
  have hl : Lane (z.lev i) i (z.frame.nodes A ++ x :: B) :=
    hc.lane i (hi.trans_le (hc.shape.height x (by simp)).2)
  exact hl.link_eq hi

/-! ## Writes

Each write is described by the frame and by the lanes after it. -/

section Writes

omit [Zero S]

variable {z z' : Zskiplist S} {i p : ℕ} {l : ZskiplistLevel}

theorem heap_of_lev (h : z.lev i p = some l) :
    ∃ n, z.heap p = some n ∧ i < n.level.length ∧ n.level[i]? = some l := by
  obtain ⟨n, hn, hl⟩ := Option.bind_eq_some_iff.mp h
  exact ⟨n, hn, (List.getElem?_eq_some_iff.mp hl).1, hl⟩

theorem lev_eq {n : ZskiplistNode S} (h : z.heap p = some n) (k : ℕ) :
    z.lev k p = n.level[k]? := by
  simp [Zskiplist.lev, h]

theorem frame_body {n : ZskiplistNode S} (h : z.heap p = some n) :
    z.frame.body p = some (n.ele, n.score, n.level.length) := by
  simp [Zskiplist.frame, h]

theorem frame_back {n : ZskiplistNode S} (h : z.heap p = some n) :
    z.frame.back p = some n.backward := by
  simp [Zskiplist.frame, h]

theorem heap_of_body {b : Option Sds × S × ℕ} (h : z.frame.body p = some b) :
    ∃ n, z.heap p = some n ∧ (n.ele, n.score, n.level.length) = b :=
  Option.map_eq_some_iff.mp h

theorem lev_put (n : ZskiplistNode S) (k : ℕ) :
    (z.put p n).lev k = Function.update (z.lev k) p n.level[k]? := by
  funext q
  by_cases hq : q = p <;> simp [Zskiplist.lev, Zskiplist.put, hq]

theorem frame_put (n : ZskiplistNode S) :
    (z.put p n).frame = { z.frame with
      body := Function.update z.frame.body p (some (n.ele, n.score, n.level.length))
      back := Function.update z.frame.back p (some n.backward) } := by
  simp only [Zskiplist.frame, Zskiplist.put, Frame.mk.injEq, true_and]
  constructor <;> funext q <;> by_cases hq : q = p <;> simp [hq]

theorem setLev_spec (h : z.lev i p = some l) (v : ZskiplistLevel) :
    ∃ z', z.setLev i p v = some z' ∧ z'.frame = z.frame ∧
      ∀ k, z'.lev k = if k = i then Function.update (z.lev i) p (some v) else z.lev k := by
  obtain ⟨n, hn, hi, -⟩ := heap_of_lev h
  refine ⟨z.put p { n with level := n.level.set i v }, by simp [Zskiplist.setLev, hn, hi], ?_,
    fun k => ?_⟩
  · rw [frame_put, List.length_set, ← frame_body hn, Function.update_eq_self, ← frame_back hn,
      Function.update_eq_self]
  · rw [lev_put]
    by_cases hk : k = i
    · subst hk
      simp [hi]
    · rw [if_neg hk, List.getElem?_set_ne (Ne.symm hk), ← lev_eq hn, Function.update_eq_self]

/-- A loop over levels, each round of which changes one lane only. -/
theorem foldlM_lanes {f : Zskiplist S → ℕ → Option (Zskiplist S)}
    {G : ℕ → ℕ → Option ZskiplistLevel} {is : List ℕ} (his : is.Nodup)
    (hf : ∀ i ∈ is, ∀ y : Zskiplist S, y.frame = z.frame → y.lev i = z.lev i →
      ∃ y', f y i = some y' ∧ y'.frame = z.frame ∧
        ∀ k, y'.lev k = if k = i then G i else y.lev k) :
    ∃ z', is.foldlM f z = some z' ∧ z'.frame = z.frame ∧
      ∀ k, z'.lev k = if k ∈ is then G k else z.lev k := by
  induction is generalizing z with
  | nil => exact ⟨z, rfl, rfl, by simp⟩
  | cons i is ih =>
    obtain ⟨hi, his⟩ := List.nodup_cons.mp his
    obtain ⟨y, hy, hyf, hyl⟩ := hf i (by simp) z rfl rfl
    obtain ⟨z', hz', hzf, hzl⟩ := ih (z := y) his fun j hj w hwf hwl => by
      have hji : j ≠ i := by rintro rfl; exact hi hj
      rw [hyf] at hwf ⊢
      exact hf j (by simp [hj]) w hwf (by rw [hwl, hyl, if_neg hji])
    refine ⟨z', by simp [List.foldlM_cons, hy, hz'], hzf.trans hyf, fun k => ?_⟩
    rw [hzl k, hyl k]
    by_cases hk : k = i
    · subst hk; simp [hi]
    · simp [hk]

theorem setBackward_spec {n : ZskiplistNode S} (h : z.heap p = some n) (b : Option ℕ) :
    ∃ z', z.setBackward p b = some z' ∧ z'.lev = z.lev ∧
      z'.frame = { z.frame with back := Function.update z.frame.back p (some b) } := by
  refine ⟨z.put p { n with backward := b }, by simp [Zskiplist.setBackward, h], ?_, ?_⟩
  · funext k
    rw [lev_put, ← lev_eq h, Function.update_eq_self]
  · rw [frame_put, ← frame_body h, Function.update_eq_self]

/-- The frame after `zslBackTo`. -/
def Frame.backTo (f : Frame S) (p b : Option ℕ) : Frame S :=
  match p with
  | some p => { f with back := Function.update f.back p (some b) }
  | none => { f with tail := b }

section BackTo

variable (f : Frame S) (p b : Option ℕ)

@[simp] theorem Frame.backTo_header : (f.backTo p b).header = f.header := by cases p <;> rfl
@[simp] theorem Frame.backTo_length : (f.backTo p b).length = f.length := by cases p <;> rfl
@[simp] theorem Frame.backTo_level : (f.backTo p b).level = f.level := by cases p <;> rfl
@[simp] theorem Frame.backTo_brk : (f.backTo p b).brk = f.brk := by cases p <;> rfl
@[simp] theorem Frame.backTo_body : (f.backTo p b).body = f.body := by cases p <;> rfl

end BackTo

theorem zslBackTo_spec {p : Option ℕ} (h : ∀ q ∈ p, (z.heap q).isSome) (b : Option ℕ) :
    ∃ z', zslBackTo z p b = some z' ∧ z'.lev = z.lev ∧ z'.frame = z.frame.backTo p b := by
  cases p with
  | none => exact ⟨_, rfl, rfl, rfl⟩
  | some q =>
    obtain ⟨n, hn⟩ := Option.isSome_iff_exists.mp (h q rfl)
    exact setBackward_spec hn b

end Writes

/-! ## The search, proved -/

variable {z : Zskiplist S} {L A B : List (Entry S)} {D : List ℕ}

/-- What a test says of an entry at a place. -/
def passes (pass : S → Option Sds → ℤ → Bool) (e : Entry S) (r : ℕ) : Bool :=
  pass (ofLex e.key).1 (some (ofLex e.key).2) r

/-- A test holds of the entries `A`, and of none of `B` that follow. The first entry has rank 1. -/
structure Divides (pass : S → Option Sds → ℤ → Bool) (A B : List (Entry S)) : Prop where
  left : ∀ C e E, A = C ++ e :: E → passes pass e (C.length + 1) = true
  right : ∀ C e E, B = C ++ e :: E → passes pass e (A.length + C.length + 1) = false

/-- The search left every lane at its last node up to `A`. -/
def Updates (f : Frame S) (A : List (Entry S)) (n : ℕ) (us : List (ℕ × ℤ)) : Prop :=
  us.length = n ∧ ∀ i < n, ∃ u r, Prev i (f.nodes A) u r ∧ us[i]? = some (u.ptr, (r : ℤ))

/-- Every lane of the list has a node of `update`, as `zslDeleteNode` reads it. -/
def Reaches (f : Frame S) (A : List (Entry S)) (us : List ℕ) : Prop :=
  ∀ i < f.level, ∃ u r, Prev i (f.nodes A) u r ∧ us[i]? = some u.ptr

theorem Updates.reaches {f : Frame S} {us : List (ℕ × ℤ)} (h : Updates f A f.level us) :
    Reaches f A (us.map Prod.fst) := fun i hi => by
  obtain ⟨u, r, hu, hg⟩ := h.2 i hi
  exact ⟨u, r, hu, by simp [hg]⟩

theorem Core.mem_body (hc : Core z L D) {e : Entry S} (he : e ∈ L) :
    ∃ n, z.heap e.ptr = some n ∧ n.ele = some (ofLex e.key).2 ∧ n.score = (ofLex e.key).1 ∧
      n.level.length = e.height := by
  obtain ⟨n, hn, hb⟩ := heap_of_body (hc.shape.body e he)
  simp only [Prod.mk.injEq] at hb
  exact ⟨n, hn, hb.1, hb.2.1, hb.2.2⟩

section Search

variable {pass : S → Option Sds → ℤ → Bool} (hc : Core z (A ++ B) D) (hd : Divides pass A B)
include hc hd

/-- One lane: from a node of the lane up to `A`, to the last one. -/
theorem zslWalk_spec {i : ℕ} (hi : i < z.level) {C E : List (Entry S)} {x : Entry S}
    (hx : z.frame.nodes A = C ++ x :: E) (hxi : i < x.height) {fuel : ℕ} (hf : E.length < fuel) :
    ∃ u r, Prev i (z.frame.nodes A) u r ∧
      zslWalk z pass i fuel x.ptr C.length = some (u.ptr, (r : ℤ)) := by
  induction fuel generalizing C x E with
  | zero => omega
  | succ fuel ih =>
    have hl : z.lev i x.ptr = some (hop i (E ++ B)) := by
      have := hc.lane i hi
      rw [show z.frame.nodes (A ++ B) = z.frame.nodes A ++ B from rfl, hx, List.append_assoc,
        List.cons_append] at this
      exact this.link_eq hxi
    -- The last node of the lane in `A` is behind, or the one the link leads to is in `A`.
    rcases hop_cases i E with ⟨hlow, hE⟩ | ⟨E₁, y, E₂, rfl, hlow, hyi, hE⟩
    · refine ⟨x, C.length, ⟨C, E, hx, rfl, hxi, hlow⟩, ?_⟩
      rw [hop_append_low hlow] at hl
      have hA : A.length = C.length + E.length := by
        have := congrArg List.length hx
        simp only [Frame.nodes, List.length_append, List.length_cons] at this
        omega
      rcases hop_cases i B with ⟨-, hB⟩ | ⟨B₁, y, B₂, rfl, -, -, hB⟩
      · simp [zslWalk, hl, hB]
      · obtain ⟨n, hn, hne, hns, -⟩ := hc.mem_body (e := y) (by simp)
        have hp := hd.right B₁ y B₂ rfl
        have hr : (C.length : ℤ) + (E.length + (B₁.length + 1)) =
            ((A.length + B₁.length + 1 : ℕ) : ℤ) := by
          push_cast [hA]; ring
        rw [passes] at hp
        simp only [zslWalk, hl, hB, Jump.shift_forward, Option.bind_eq_bind, Option.bind_some,
          Jump.shift_span, hn, hr, hns, hne, hp]
        rfl
    · rw [List.append_assoc, List.cons_append, hop_append_cons_high hyi E₂, hE] at hl
      have hyA : y ∈ A ∧ ∃ C', A = C' ++ y :: E₂ ∧ C'.length + 1 = C.length + (E₁.length + 1) := by
        cases C with
        | nil =>
          obtain ⟨-, rfl⟩ := List.cons.inj hx
          exact ⟨by simp, E₁, rfl, by simp⟩
        | cons c C =>
          obtain ⟨-, rfl⟩ := List.cons.inj hx
          exact ⟨by simp, C ++ x :: E₁, by simp, by simp; omega⟩
      obtain ⟨hy, C', hC', hlen⟩ := hyA
      obtain ⟨n, hn, hne, hns, -⟩ := hc.mem_body (e := y) (by simp [hy])
      have hp := hd.left C' y E₂ hC'
      have hr : (C.length : ℤ) + (E₁.length + 1) = ((C'.length + 1 : ℕ) : ℤ) := by omega
      obtain ⟨u, r, hu, hw⟩ := ih (C := C ++ x :: E₁) (x := y) (E := E₂) (by simp [hx]) hyi
        (by simp only [List.length_append, List.length_cons] at hf; omega)
      refine ⟨u, r, hu, ?_⟩
      simp only [zslWalk, hl, Option.bind_eq_bind, Option.bind_some, hn, hr, hns, hne]
      rw [passes] at hp
      rw [if_pos hp, ← hw, hlen]
      simp

theorem zslWalk_length {i : ℕ} (hi : i < z.level) {C E : List (Entry S)} {x : Entry S}
    (hx : z.frame.nodes A = C ++ x :: E) (hxi : i < x.height) :
    ∃ u r, Prev i (z.frame.nodes A) u r ∧
      zslWalk z pass i (z.length + 1) x.ptr C.length = some (u.ptr, (r : ℤ)) := by
  refine zslWalk_spec hc hd hi hx hxi ?_
  have hlen : z.length = (A ++ B).length := hc.shape.length
  have := congrArg List.length hx
  simp only [Frame.nodes, List.length_append, List.length_cons] at this hlen
  omega

theorem zslDescend_spec {n : ℕ} (hn : n ≤ z.level) {C E : List (Entry S)} {x : Entry S}
    (hx : z.frame.nodes A = C ++ x :: E) (hxn : n ≤ x.height) :
    ∃ us, zslDescend z pass n x.ptr C.length = some us ∧ Updates z.frame A n us := by
  induction n generalizing C x E with
  | zero => exact ⟨[], rfl, rfl, by simp⟩
  | succ i ih =>
    obtain ⟨u, r, hu, hw⟩ := zslWalk_length hc hd (i := i) (by omega) hx (by omega)
    obtain ⟨C', E', hC', rfl, hui, -⟩ := id hu
    obtain ⟨us, hus, hlen, hget⟩ := ih (by omega) hC' (by omega)
    refine ⟨us ++ [(u.ptr, (C'.length : ℤ))], by simp [zslDescend, hw, hus], by simp [hlen], ?_⟩
    intro k hk
    by_cases hki : k = i
    · subst hki
      exact ⟨u, C'.length, hu, by simp [← hlen]⟩
    · obtain ⟨v, r, hv, hg⟩ := hget k (by omega)
      exact ⟨v, r, hv, by rw [List.getElem?_append_left (by omega), hg]⟩

/-- The search finds the place between `A` and `B` in every lane. -/
theorem zslSearch_spec : ∃ us, zslSearch z pass = some us ∧ Updates z.frame A z.level us :=
  zslDescend_spec hc hd le_rfl (C := []) (x := z.frame.head) rfl hc.shape.level.2

end Search

end CrdtRedis
