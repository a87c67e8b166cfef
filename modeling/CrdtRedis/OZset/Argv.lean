import CrdtRedis.OZset.Model
import CrdtRedis.Rargv
import CrdtRedis.Wire

/-!
# The tags of a command as arguments (`t_ozset.c`, `CRDT.h`)

The prepare phases of `ozincrby` and `ozrem` add an argument for each live tag; the effect phases
read the tags from a fixed argument on. `ozPrepare` has the tags in its message. Here they are
arguments in the memory of `rargv`.

* `ozTagMsg_roundTrip`: the effect phase reads the message that `ozPrepare` has, for a command that
  the command table and the prepare phase let through.
-/

namespace CrdtRedis

variable {n : ℕ}

/-- The commands that name tags. -/
inductive OzTagCmd where
  | ozincrby
  | ozrem

/-- The least number of arguments, in the command table. -/
def OzTagCmd.arity : OzTagCmd → ℕ
  | .ozincrby => 4
  | .ozrem => 3

/-- The command with its arguments; `num` reads a number. -/
def OzTagCmd.zcmd (num : Sds → Option ℚ) (argv : List Sds) : OzTagCmd → ZCmd
  | .ozincrby => .zincrby argv.length (argv[3]?.bind num)
  | .ozrem => .zrem argv.length

/-- What the loop over `aset` adds. -/
def tagArgs (e : OzTags) : List Sds := e.aset.map fun a => lcToSds a.t

/-- The prepare phase; `none` where it writes outside of `rargv`. -/
def ozTagPrepare (num : Sds → Option ℚ) (r : Fin n) (c : OzCell) (argv : List Sds)
    (cmd : OzTagCmd) : Option (Except ReplyErr (RargvMem Sds)) :=
  match (ozPrepare r c (cmd.zcmd num argv)).2 with
  | .error err => some (.error err)
  | .ok _ => (rargvMem argv (tagArgs c.get.toOzTags)).map .ok

/-- The loop of the effect phases with `k` arguments to come, from `i` on. -/
def readTags (rargv : RargvMem Sds) (i : ℕ) : ℕ → Option (List Lc)
  | 0 => some []
  | k + 1 => (rargv.get i).bind fun s => (sdsToLc s).bind fun t =>
    (readTags rargv (i + 1) k).map (t :: ·)

/-- The message that the effect phase reads. -/
def ozTagMsg (num : Sds → Option ℚ) (rargv : RargvMem Sds) : OzTagCmd → Option OzMsg
  | .ozincrby => ((rargv.get 3).bind num).bind fun v =>
    (readTags rargv 4 (rargv.rargc - 4)).map (OzMsg.inc v)
  | .ozrem => (readTags rargv 3 (rargv.rargc - 3)).map OzMsg.rem

/-- The tags that a message names. -/
def OzMsg.tags : OzMsg → List Lc
  | .add _ t => [t]
  | .inc _ ts => ts
  | .rem ts => ts

theorem readTags_of_holds {rargv : RargvMem Sds} {pre : List Sds} {ts : List Lc}
    (h : rargv.Holds (pre ++ ts.map lcToSds)) (hts : ∀ t ∈ ts, t.InInt) :
    readTags rargv pre.length ts.length = some ts := by
  induction ts generalizing pre with
  | nil => rfl
  | cons t ts ih =>
    have hget : rargv.get pre.length = some (lcToSds t) := by
      rw [h.get, List.map_cons, List.getElem?_append_right le_rfl, Nat.sub_self]
      rfl
    have hnext : rargv.Holds ((pre ++ [lcToSds t]) ++ ts.map lcToSds) := by
      rwa [List.append_assoc, List.singleton_append]
    have hrest := ih hnext fun t' ht' => hts t' (List.mem_cons_of_mem _ ht')
    rw [List.length_append, List.length_singleton] at hrest
    rw [List.length_cons, readTags, hget, Option.bind_some,
      sdsToLc_lcToSds (hts t List.mem_cons_self), Option.bind_some, hrest]
    rfl

/-- An increment that the prepare phase lets through. -/
theorem ozincrby_accepted {r : Fin n} {c : OzCell} {argc : ℕ} {v : Option ℚ} {m : OzMsg}
    (h : (ozPrepare r c (.zincrby argc v)).2 = .ok m) :
    argc ≤ 4 ∧ ∃ w, v = some w ∧ m = .inc w (c.get.aset.map OzAse.t) := by
  simp only [ozPrepare] at h
  split at h
  · cases h
  · cases h
  · cases h
  · rename_i w e hv he hargc
    have hg : c.get = e := by simp [OzCell.get, he]
    split at h
    · cases h
      exact ⟨checkArgc_le (checkArgc_ok hargc), w, checkArg_ok hv, by rw [hg]⟩
    · cases h

/-- A remove that the prepare phase lets through. -/
theorem ozrem_accepted {r : Fin n} {c : OzCell} {argc : ℕ} {m : OzMsg}
    (h : (ozPrepare r c (.zrem argc)).2 = .ok m) :
    argc ≤ 3 ∧ m = .rem (c.get.aset.map OzAse.t) := by
  simp only [ozPrepare] at h
  split at h
  · cases h
  · cases h
  · rename_i e he hargc
    have hg : c.get = e := by simp [OzCell.get, he]
    split at h
    · cases h
      exact ⟨checkArgc_le (checkArgc_ok hargc), by rw [hg]⟩
    · cases h

/-- Every write of the prepare phases stays in `rargv`, which ends as `argv` and the live tags, for
any number of either. What the effect phase of an accepted command reads there is its message, with
the live tags and no others. -/
theorem ozTagMsg_roundTrip (num : Sds → Option ℚ) (r : Fin n) (cmd : OzTagCmd) (argv : List Sds)
    (c : OzCell) (hc : ∀ a ∈ c.get.aset, a.t.InInt) :
    (∃ rargv, rargvMem argv (tagArgs c.get.toOzTags) = some rargv ∧
      rargv.Holds (argv ++ tagArgs c.get.toOzTags) ∧
      rargv.cells.length ≤ argv.length + max 4 (2 * c.get.aset.length)) ∧
    ∀ m, cmd.arity ≤ argv.length → (ozPrepare r c (cmd.zcmd num argv)).2 = .ok m →
      ∃ rargv, ozTagPrepare num r c argv cmd = some (.ok rargv) ∧
        rargv.Holds (argv ++ tagArgs c.get.toOzTags) ∧
        ozTagMsg num rargv cmd = some m ∧ m.tags = c.get.aset.map OzAse.t := by
  obtain ⟨rargv, hrargv, hholds, hlen⟩ := rargvMem_spec argv (tagArgs c.get.toOzTags)
  refine ⟨⟨rargv, hrargv, hholds, by simpa [tagArgs, additionalCapacity] using hlen⟩,
    fun m harity hm => ⟨rargv, ?_, hholds, ?_⟩⟩
  · unfold ozTagPrepare
    rw [hm, hrargv]
    rfl
  · -- the loop starts right after `argv`
    have hread : readTags rargv argv.length (rargv.rargc - argv.length) =
        some (c.get.aset.map OzAse.t) := by
      have hargs : tagArgs c.get.toOzTags = (c.get.aset.map OzAse.t).map lcToSds := by
        simp [tagArgs]
      have hcount : rargv.rargc - argv.length = (c.get.aset.map OzAse.t).length := by
        rw [hholds.rargc, List.length_append, Nat.add_sub_cancel_left, hargs, List.length_map]
      rw [hcount]
      refine readTags_of_holds (hargs ▸ hholds) fun t ht => ?_
      obtain ⟨a, ha, rfl⟩ := List.mem_map.mp ht
      exact hc a ha
    cases cmd with
    | ozincrby =>
      obtain ⟨hle, v, hv, rfl⟩ := ozincrby_accepted hm
      have hargc : argv.length = 4 := le_antisymm hle harity
      have hnum : (rargv.get 3).bind num = some v := by
        rw [hholds.get, List.getElem?_append_left (by omega)]
        exact hv
      refine ⟨?_, rfl⟩
      rw [hargc] at hread
      rw [ozTagMsg, hnum, Option.bind_some, hread]
      rfl
    | ozrem =>
      obtain ⟨hle, rfl⟩ := ozrem_accepted hm
      have hargc : argv.length = 3 := le_antisymm hle harity
      refine ⟨?_, rfl⟩
      rw [hargc] at hread
      rw [ozTagMsg, hread]
      rfl

/-- An element with two live tags. -/
def twoTags : OzCell :=
  ⟨some ⟨⟨some ⟨0, 1⟩, none, [⟨⟨3, 0⟩, 5, 0, 0⟩, ⟨⟨0, 1⟩, 2, 0, 0⟩], []⟩, 4⟩, some 2⟩

theorem ozTagMsg_roundTrip_two :
    (ozPrepare (0 : Fin 2) twoTags (.zrem 3)).2 = .ok (.rem [⟨3, 0⟩, ⟨0, 1⟩]) ∧
      ∃ rargv, ozTagPrepare (fun _ => none) (0 : Fin 2) twoTags
          ["ozrem".toList, "queue".toList, "element".toList] .ozrem = some (.ok rargv) ∧
        ozTagMsg (fun _ => none) rargv .ozrem = some (.rem [⟨3, 0⟩, ⟨0, 1⟩]) := by
  have hm : (ozPrepare (0 : Fin 2) twoTags (.zrem 3)).2 = .ok (.rem [⟨3, 0⟩, ⟨0, 1⟩]) := rfl
  have hint : ∀ a ∈ twoTags.get.aset, a.t.InInt := by
    intro a ha
    rcases List.mem_pair.mp ha with rfl | rfl
    · exact ⟨by decide, by decide⟩
    · exact ⟨by decide, by decide⟩
  obtain ⟨rargv, hprep, -, hmsg, -⟩ := (ozTagMsg_roundTrip (fun _ => none) (0 : Fin 2) .ozrem
    ["ozrem".toList, "queue".toList, "element".toList] twoTags hint).2 _ le_rfl hm
  exact ⟨hm, rargv, hprep, hmsg⟩

end CrdtRedis
