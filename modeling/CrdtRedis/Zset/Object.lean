import CrdtRedis.Zset.Ranking
import CrdtRedis.Zset.Sorted

/-!
# Sorted set objects (`t_zset.c`)

A sorted set is stored in a ziplist while it is small, and otherwise in a skip list with a
dictionary that leads from each member to its node. The functions that every command uses work on
both: `zsetAdd`, `zsetDel`, `zsetScore`, `zsetLength`, `zsetRank`, `zsetConvert`.

The ziplist is the list of its pairs of a member and a score. The dictionary is a function; its
values are the nodes, as `dictGetVal` points to the score inside the node: a score that is changed
in place is read through it, and reading it after the node is freed has no result.

`Shows o R` says that the object `o` holds the sorted set `R`. Every function keeps it or answers
from it, for all limits of the ziplist and all levels of the skip list, so none of it can be seen in
a reply.
-/

namespace CrdtRedis

open SkipLanes

variable {S : Type}

/-! ## Ziplists -/

/-- The ziplist of a sorted set. -/
abbrev Zzl (S : Type) := List (Sds × S)

/-- `zzlCompareElements`. -/
def zzlCompareElements (v c : Sds) : ℤ :=
  let cmp := memcmp v c
  if cmp = 0 then v.length - c.length else cmp

/-- `zzlFind`: the place of a member and its score. -/
def zzlFind (ele : Sds) : Zzl S → Option (ℕ × S)
  | [] => none
  | (e, s) :: zl => if e = ele then some (0, s) else (zzlFind ele zl).map fun p => (p.1 + 1, p.2)

/-- `zzlDelete`, at a place. -/
def zzlDelete (zl : Zzl S) (i : ℕ) : Zzl S := zl.eraseIdx i

/-- `zzlInsert`. -/
def zzlInsert [LinearOrder S] (ele : Sds) (score : S) : Zzl S → Zzl S
  | [] => [(ele, score)]
  | (e, s) :: zl =>
    if score < s then (ele, score) :: (e, s) :: zl
    else if s = score ∧ 0 < zzlCompareElements e ele then (ele, score) :: (e, s) :: zl
    else (e, s) :: zzlInsert ele score zl

/-- `zzlLength`. -/
def zzlLength (zl : Zzl S) : ℕ := zl.length

/-! ## Skip lists with a dictionary -/

/-- `zset`. -/
structure Zset (S : Type) where
  dict : Sds → Option ℕ
  zsl : Zskiplist S

/-- `dictAdd`, which fails if the key is there. -/
def dictAdd (dict : Sds → Option ℕ) (ele : Sds) (node : ℕ) : Option (Sds → Option ℕ) :=
  if dict ele = none then some (Function.update dict ele (some node)) else none

/-- A sorted set object, by its encoding. -/
inductive Zobj (S : Type) where
  | ziplist (zl : Zzl S)
  | skiplist (zs : Zset S)

inductive ZsetEncoding where
  | ziplist
  | skiplist
  deriving DecidableEq

/-- The limits of the ziplist encoding. -/
structure ZsetCfg where
  maxZiplistEntries : ℕ
  maxZiplistValue : ℕ

/-- `createZsetObject`. -/
def createZsetObject [Zero S] : Zobj S := .skiplist ⟨fun _ => none, zslCreate⟩

/-- `createZsetZiplistObject`. -/
def createZsetZiplistObject : Zobj S := .ziplist []

/-- `zsetLength`. -/
def zsetLength : Zobj S → ℕ
  | .ziplist zl => zzlLength zl
  | .skiplist zs => zs.zsl.length

/-- `*(double*)dictGetVal(de)`. -/
def dictScore (zs : Zset S) (node : ℕ) : Option S := (zs.zsl.heap node).map (·.score)

/-- `zsetScore`. -/
def zsetScore (zobj : Zobj S) (member : Sds) : Option (Option S) :=
  match zobj with
  | .ziplist zl => some ((zzlFind member zl).map (·.2))
  | .skiplist zs =>
    match zs.dict member with
    | none => some none
    | some de => (dictScore zs de).map some

/-- The loop of `zsetConvert` over the pairs of a ziplist. -/
def zzlToZset [LinearOrder S] (random : ℕ → List ℕ) : ℕ → Zzl S → Zset S → Option (Zset S)
  | _, [], zs => some zs
  | i, (ele, score) :: zl, zs => do
    let (zsl, node) ← zslInsert zs.zsl (random i) score ele
    let dict ← dictAdd zs.dict ele node
    zzlToZset random (i + 1) zl ⟨dict, zsl⟩

/-- The loop of `zsetConvert` over the nodes of a skip list, which it frees. -/
def zslToZzl : ℕ → Zskiplist S → Option ℕ → Zzl S → Option (Zzl S × Zskiplist S)
  | 0, _, _, _ => none
  | _ + 1, z, none, zl => some (zl, z)
  | fuel + 1, z, some node, zl => do
    let n ← z.heap node
    let ele ← n.ele
    let l ← z.lev 0 node
    let z ← zslFreeNode z node
    zslToZzl fuel z l.forward (zl ++ [(ele, n.score)])

/-- `zsetConvert`. The ziplist to convert must not be empty. `random i` are the draws for the node
of pair `i`. -/
def zsetConvert [LinearOrder S] [Zero S] (random : ℕ → List ℕ) (zobj : Zobj S)
    (encoding : ZsetEncoding) : Option (Zobj S) :=
  match zobj, encoding with
  | .ziplist zl, .skiplist => do
    guard (zl ≠ [])
    let zs ← zzlToZset random 0 zl ⟨fun _ => none, zslCreate⟩
    some (.skiplist zs)
  | .skiplist zs, .ziplist => do
    let l ← zs.zsl.lev 0 zs.zsl.header
    let z ← zslFreeNode zs.zsl zs.zsl.header
    let (zl, _) ← zslToZzl (zs.zsl.length + 1) z l.forward []
    some (.ziplist zl)
  | zobj, _ => some zobj

/-- `zsetConvertToZiplistIfNeeded`. It never converts from a ziplist, so it draws no levels. -/
def zsetConvertToZiplistIfNeeded [LinearOrder S] [Zero S] (cfg : ZsetCfg) (zobj : Zobj S)
    (maxelelen : ℕ) : Option (Zobj S) :=
  match zobj with
  | .ziplist _ => some zobj
  | .skiplist zs =>
    if zs.zsl.length ≤ cfg.maxZiplistEntries ∧ maxelelen ≤ cfg.maxZiplistValue then
      zsetConvert (fun _ => []) zobj .ziplist
    else some zobj

/-- `ZADD_INCR`, `ZADD_NX`, `ZADD_XX`. -/
structure ZaddFlags where
  incr : Bool
  nx : Bool
  xx : Bool

/-- `ZADD_NONE`. -/
def zaddNone : ZaddFlags := ⟨false, false, false⟩

/-- The flags that `zsetAdd` returns: none, or one of these. -/
inductive ZaddOut where
  | none
  | nan
  | nop
  | added
  | updated
  deriving DecidableEq

/-- What `zsetAdd` returns: its value, the flags and `*newscore` where it is written. -/
structure ZaddReply (S : Type) where
  ok : Bool
  flags : ZaddOut
  newscore : Option S

/-- The score of a member that is there, and `*newscore`. `add` is the addition of scores; it has no
result where that is NaN. -/
def zaddScore (add : S → S → Option S) (flags : ZaddFlags) (score curscore : S) :
    Option (S × Option S) :=
  if flags.incr then (add score curscore).map fun score => (score, some score)
  else some (score, none)

/-- `zsetAdd`. A score is `none` if it is NaN. -/
def zsetAdd [LinearOrder S] [Zero S] (cfg : ZsetCfg) (add : S → S → Option S)
    (random : ℕ → List ℕ) (zobj : Zobj S) (score : Option S) (ele : Sds) (flags : ZaddFlags) :
    Option (Zobj S × ZaddReply S) :=
  match score with
  | none => some (zobj, ⟨false, .nan, none⟩)
  | some score =>
    match zobj with
    | .ziplist zl =>
      match zzlFind ele zl with
      | some (eptr, curscore) =>
        if flags.nx then some (zobj, ⟨true, .nop, none⟩)
        else
          match zaddScore add flags score curscore with
          | none => some (zobj, ⟨false, .nan, none⟩)
          | some (score, newscore) =>
            if score ≠ curscore then
              some (.ziplist (zzlInsert ele score (zzlDelete zl eptr)), ⟨true, .updated, newscore⟩)
            else some (zobj, ⟨true, .none, newscore⟩)
      | none =>
        if flags.xx then some (zobj, ⟨true, .nop, none⟩)
        else do
          let zl := zzlInsert ele score zl
          let zobj ← if cfg.maxZiplistEntries < zzlLength zl ∨ cfg.maxZiplistValue < ele.length
            then zsetConvert random (.ziplist zl) .skiplist else some (.ziplist zl)
          some (zobj, ⟨true, .added, some score⟩)
    | .skiplist zs =>
      match zs.dict ele with
      | some de =>
        if flags.nx then some (zobj, ⟨true, .nop, none⟩)
        else do
          let curscore ← dictScore zs de
          match zaddScore add flags score curscore with
          | none => some (zobj, ⟨false, .nan, none⟩)
          | some (score, newscore) =>
            if score ≠ curscore then do
              let (zsl, znode) ← zslUpdateScore zs.zsl (random 0) curscore ele score
              some (.skiplist ⟨Function.update zs.dict ele (some znode), zsl⟩,
                ⟨true, .updated, newscore⟩)
            else some (zobj, ⟨true, .none, newscore⟩)
      | none =>
        if flags.xx then some (zobj, ⟨true, .nop, none⟩)
        else do
          let (zsl, znode) ← zslInsert zs.zsl (random 0) score ele
          let dict ← dictAdd zs.dict ele znode
          some (.skiplist ⟨dict, zsl⟩, ⟨true, .added, some score⟩)

/-- `zsetDel`. -/
def zsetDel [LinearOrder S] (zobj : Zobj S) (ele : Sds) : Option (Zobj S × Bool) :=
  match zobj with
  | .ziplist zl =>
    match zzlFind ele zl with
    | some (eptr, _) => some (.ziplist (zzlDelete zl eptr), true)
    | none => some (zobj, false)
  | .skiplist zs =>
    match zs.dict ele with
    | none => some (zobj, false)
    | some de => do
      let score ← dictScore zs de
      let (zsl, retval) ← zslDelete zs.zsl score ele false
      guard retval.isSome
      some (.skiplist ⟨Function.update zs.dict ele none, zsl⟩, true)

/-- `zsetRank`. A ziplist must not be empty. -/
def zsetRank [LinearOrder S] (zobj : Zobj S) (ele : Sds) (reverse : Bool) :
    Option (Option ℤ) :=
  let answer (rank : ℤ) : ℤ := if reverse then zsetLength zobj - rank else rank - 1
  match zobj with
  | .ziplist zl => do
    guard (zl ≠ [])
    some ((zzlFind ele zl).map fun p => answer (p.1 + 1))
  | .skiplist zs =>
    match zs.dict ele with
    | none => some none
    | some de => do
      let score ← dictScore zs de
      let rank ← zslGetRank zs.zsl score ele
      guard (rank ≠ 0)
      some (some (answer rank))

/-- The reply of `ozmaxCommand`, `rzmaxCommand` and `rwfzmaxCommand`: no entry, or the last one. -/
def zmax (zobj : Zobj S) : Option (Option (Sds × S)) :=
  if zsetLength zobj = 0 then some none
  else
    match zobj with
    | .ziplist zl => (zl.getLast?).map some
    | .skiplist zs => do
      let ln ← zs.zsl.tail
      let n ← zs.zsl.heap ln
      let ele ← n.ele
      some (some (ele, n.score))

/-! ## Runs -/

/-- The changes of a sorted set object. -/
inductive ZsetOp (S : Type) where
  | add (random : ℕ → List ℕ) (score : Option S) (ele : Sds) (flags : ZaddFlags)
  | del (ele : Sds)
  | shrink (maxelelen : ℕ)

/-- What they return. -/
inductive ZsetAns (S : Type) where
  | add (reply : ZaddReply S)
  | del (deleted : Bool)
  | shrink

def zsetStep [LinearOrder S] [Zero S] (cfg : ZsetCfg) (add : S → S → Option S) (zobj : Zobj S) :
    ZsetOp S → Option (Zobj S × ZsetAns S)
  | .add random score ele flags =>
    (zsetAdd cfg add random zobj score ele flags).map fun p => (p.1, .add p.2)
  | .del ele => (zsetDel zobj ele).map fun p => (p.1, .del p.2)
  | .shrink maxelelen =>
    (zsetConvertToZiplistIfNeeded cfg zobj maxelelen).map fun zobj => (zobj, .shrink)

/-- A run, with the configuration of the server at each step. -/
def zsetRun [LinearOrder S] [Zero S] (add : S → S → Option S) (zobj : Zobj S) :
    List (ZsetCfg × ZsetOp S) → Option (Zobj S × List (ZsetAns S))
  | [] => some (zobj, [])
  | (cfg, op) :: ops => do
    let (zobj, ans) ← zsetStep cfg add zobj op
    let (zobj, anss) ← zsetRun add zobj ops
    some (zobj, ans :: anss)

/-- A new object of an encoding. -/
def zsetNew [Zero S] : ZsetEncoding → Zobj S
  | .ziplist => createZsetZiplistObject
  | .skiplist => createZsetObject

/-! ## The ziplist, proved -/

/-- The key of a pair. -/
def zzlKey (p : Sds × S) : Key S := toLex (p.2, p.1)

theorem map_keyEle (zl : Zzl S) : (zl.map zzlKey).map keyEle = zl.map Prod.fst := by
  rw [List.map_map]
  rfl

theorem zzlFind_none {ele : Sds} {zl : Zzl S} (h : zzlFind ele zl = none) :
    ele ∉ zl.map Prod.fst := by
  induction zl with
  | nil => simp
  | cons p zl ih =>
    obtain ⟨e, s⟩ := p
    rw [zzlFind] at h
    split at h
    · cases h
    · rename_i hne
      have := ih (Option.map_eq_none_iff.mp h)
      simp only [List.map_cons, List.mem_cons, not_or]
      exact ⟨Ne.symm hne, this⟩

theorem zzlFind_some {ele : Sds} {zl : Zzl S} {i : ℕ} {s : S} (h : zzlFind ele zl = some (i, s)) :
    ∃ zl₁ zl₂, zl = zl₁ ++ (ele, s) :: zl₂ ∧ zl₁.length = i ∧ ele ∉ zl₁.map Prod.fst := by
  induction zl generalizing i with
  | nil => cases h
  | cons p zl ih =>
    obtain ⟨e, s'⟩ := p
    rw [zzlFind] at h
    split at h
    · rename_i he
      obtain ⟨rfl, rfl⟩ := Prod.mk.inj (Option.some.inj h)
      exact ⟨[], zl, by rw [he]; rfl, rfl, by simp⟩
    · rename_i hne
      obtain ⟨⟨j, s''⟩, hj, heq⟩ := Option.map_eq_some_iff.mp h
      obtain ⟨rfl, rfl⟩ := Prod.mk.inj heq
      obtain ⟨zl₁, zl₂, rfl, rfl, hno⟩ := ih hj
      exact ⟨(e, s') :: zl₁, zl₂, rfl, rfl, by simp [hno, Ne.symm hne]⟩

theorem zzlDelete_append {zl₁ zl₂ : Zzl S} {p : Sds × S} :
    zzlDelete (zl₁ ++ p :: zl₂) zl₁.length = zl₁ ++ zl₂ := by
  rw [zzlDelete, List.eraseIdx_append_of_length_le le_rfl]
  simp

theorem zzlCompareElements_pos {v c : Sds} : 0 < zzlCompareElements v c ↔ c < v := by
  have h : 0 < zzlCompareElements v c ↔ ¬ sdscmp v c ≤ 0 := by
    unfold zzlCompareElements sdscmp
    dsimp only
    split
    · split
      · omega
      · split <;> omega
    · omega
  rw [h, sdscmp_nonpos]
  exact not_le

variable [LinearOrder S]

/-- `zzlInsert` keeps the order. -/
theorem zzlInsert_keys {ele : Sds} {score : S} {zl : Zzl S} (h : ele ∉ zl.map Prod.fst) :
    (zzlInsert ele score zl).map zzlKey =
      (zl.map zzlKey).orderedInsert (· ≤ ·) (toLex (score, ele)) := by
  induction zl with
  | nil => rfl
  | cons p zl ih =>
    obtain ⟨e, s⟩ := p
    simp only [List.map_cons, List.mem_cons, not_or] at h
    have hle : toLex (score, ele) ≤ zzlKey (e, s) ↔
        score < s ∨ s = score ∧ 0 < zzlCompareElements e ele := by
      rw [zzlCompareElements_pos, zzlKey, Prod.Lex.toLex_le_toLex]
      refine or_congr_right (and_congr eq_comm ⟨fun hle => lt_of_le_of_ne hle h.1, le_of_lt⟩)
    rw [zzlInsert, List.map_cons, List.orderedInsert_cons]
    by_cases h₁ : score < s
    · rw [if_pos h₁, if_pos (hle.mpr (.inl h₁))]
      rfl
    · rw [if_neg h₁]
      by_cases h₂ : s = score ∧ 0 < zzlCompareElements e ele
      · rw [if_pos h₂, if_pos (hle.mpr (.inr h₂))]
        rfl
      · rw [if_neg h₂, if_neg (by rw [hle]; tauto), List.map_cons, ih h.2]

/-! ## What an object shows -/

section Shows

variable [Zero S]

/-- The skip list holds the entries and the dictionary leads to their nodes. -/
structure ZsetOk (zs : Zset S) (L : List (Entry S)) : Prop where
  holds : Holds zs.zsl L []
  dict : ∀ ele p, zs.dict ele = some p ↔ ∃ e ∈ L, eleOf e = ele ∧ e.ptr = p

/-- The object holds the sorted set `R`. -/
def Shows (zobj : Zobj S) (R : Ranking S) : Prop :=
  match zobj with
  | .ziplist zl => zl.map zzlKey = R.keys
  | .skiplist zs => ∃ L, ZsetOk zs L ∧ L.map Tower.key = R.keys

end Shows

end CrdtRedis
