import CrdtRedis.RList.Convergence
import CrdtRedis.RZset

/-!
# Runs of the two Remove-Win types (`t_rzset.c`, `t_rlist.c`)

Both types deliver in causal order and keep the same records, an element of the queue by itself and
the elements of a list together.

* `causal_delivery`: what a replica applied is the largest causally closed part of what it received,
  and the buffer holds the rest; `notifyLoop` ends.
* `records_concurrent`: the timestamps that an element stores are pairwise concurrent. Two removes
  are, because a remove is accepted only where `rset` is empty: a remove that it saw has been
  replaced by an add that it saw too (`rzEle_addBetween`, `rl_addBetween`).

For the list both need commands that name none of the table's own names
(`causal_delivery_current`, `records_comparable`).
-/

namespace CrdtRedis

open Broadcast

variable {n : ℕ}

/-! ## Causal delivery -/

/-- `notifyLoop` of the queue ends: after as many rounds as the buffer has operations no operation
of the rest is ready, and more rounds change nothing. -/
theorem rzNotify_ends (c : RzCell n) :
    (∀ m ∈ (rzNotify c.e.ops.length c).e.ops, rzReady (rzNotify c.e.ops.length c) m = false) ∧
      ∀ k, c.e.ops.length ≤ k → rzNotify k c = rzNotify c.e.ops.length c := by
  refine ⟨fun m hm => ?_, fun k hk => ?_⟩
  · have hq := List.find?_eq_none.mp
      (drain_quiet rzReady rzExec c.e.ops.length c c.e.ops le_rfl) m hm
    exact Bool.eq_false_of_not_eq_true hq
  · simp only [rzNotify, drain_of_le k c c.e.ops hk]

/-- `notifyLoop` of the list ends. -/
theorem rlNotify_ends (x : RlSt n) :
    (∀ y, rlNotify x.ops.length x = some y → ∀ m ∈ y.ops, rlReady (some y) m = false) ∧
      ∀ k, x.ops.length ≤ k → rlNotify k x = rlNotify x.ops.length x := by
  refine ⟨fun y hy m hm => ?_, fun k hk => ?_⟩
  · obtain ⟨ht, -, hy⟩ := Option.bind_eq_some_iff.mp hy
    obtain ⟨z, hz, rfl⟩ := Option.map_eq_some_iff.mp hy
    have hq := List.find?_eq_none.mp (drain_quiet rlReady (fun x m => x.bind (RlSt.exec · m))
      x.ops.length (some { x with ht := ht }) x.ops le_rfl) m hm
    rw [hz] at hq
    simpa [rlReady] using hq
  · simp only [rlNotify, drain_of_le k _ x.ops hk]

/-- **Causal delivery**: in every run of the queue and of the list, with every order of reception,
every replica has applied the largest causally closed part of what it received, once and in causal
order, and buffers the rest; the loop over the buffer ends. The commands of the list name none of
the table's own names. -/
theorem causal_delivery {n' : ℕ} {s : Sys (Fin n) (Sds → Option (RzCell n)) (Sds × RzMsg n)}
    {s' : Sys (Fin n') (Option (RlSt n')) (RlMsg n')} (hs : (rzObj n).Reach anyOrder s)
    (hs' : (rlObj n').Reach rlGuard s') :
    (∀ k r, let c := rzCellAt (rzOn s k) r
      Delivered (rwStamp n ℚ ℚ) r (broadcasts (rzOn s k)) (received (rzOn s k) r) c.hist c.e.ops) ∧
    (∀ c : RzCell n,
      (∀ m ∈ (rzNotify c.e.ops.length c).e.ops, rzReady (rzNotify c.e.ops.length c) m = false) ∧
        ∀ k, c.e.ops.length ≤ k → rzNotify k c = rzNotify c.e.ops.length c) ∧
    (∀ r, ∃ x, s'.st r = some x ∧
      Delivered (rlStamp n') r (broadcasts s') (received s' r) x.hist x.ops) ∧
    ∀ x : RlSt n',
      (∀ y, rlNotify x.ops.length x = some y → ∀ m ∈ y.ops, rlReady (some y) m = false) ∧
        ∀ k, x.ops.length ≤ k → rlNotify k x = rlNotify x.ops.length x := by
  refine ⟨fun k r => ?_, rzNotify_ends, fun r => ?_, rlNotify_ends⟩
  · have hk : (rzEleObj n).Reach anyOrder (rzOn s k) :=
      (keyedView _ k).reach_any (fun _ _ _ => trivial) hs
    exact (rzEle_causal hk).delivered r
  · obtain ⟨x, hx, -⟩ := (rl_causal hs').2 r
    exact ⟨x, hx, (rl_local hs' hx).2.2⟩

/-- The hypotheses hold of runs in which operations are buffered. -/
theorem causal_delivery_demo :
    let s := (rlObj 2).runOf rlDemo
    ∃ x, s.st 1 = some x ∧
      Delivered (rlStamp 2) 1 (broadcasts s) (received s 1) x.hist x.ops :=
  (causal_delivery (s := (rzObj 2).runOf rzDemo)
    (Obj.reach_runOf (g := fun _ _ => true) (fun _ _ _ => trivial) rzDemo (by decide))
    (Obj.reach_runOf rlGuard_of_ok rlDemo (by decide +kernel))).2.2.1 1

/-- **An element named `current` takes the place of the list's clock**: the command that inserts it
has no defined result, and the server is lost with it. -/
theorem causal_delivery_current :
    let s := (rlObj 1).runOf [.op 0 (insertFront "current".toList 0) 0]
    (rlObj 1).Reach fifo s ∧ s.st 0 = none :=
  ⟨Obj.reach_runOf Obj.fifo_of_fifoOk _ (by decide +kernel), by decide +kernel⟩

/-! ## Records are concurrent -/

/-- Between two removes of an element of the queue one of which saw the other there is an add. -/
theorem rzEle_addBetween {s : Sys (Fin n) (Option (RzCell n)) (RzMsg n)}
    (hs : (rzEleObj n).Reach anyOrder s) (r : Fin n) : AddBetween (rzCellAt s r).hist := by
  intro t t' ht ht' hlt
  have hd := (rzEle_causal hs).delivered r
  have hsent : ∀ m ∈ (rzCellAt s r).hist, ∃ i o, s.log i = some (o, m) := fun m hm => by
    obtain ⟨i, -, o, hl⟩ := (rzEle_hist hs r).2.2 m hm
    exact ⟨i, o, hl⟩
  -- Where the later remove was issued, the element was a member and the earlier one was applied.
  obtain ⟨i, o, hl⟩ := hsent _ ht'
  obtain ⟨s₀, h₀, hiff⟩ :=
    View.sentAt (v := rzView n) (fun _ => rfl) (fun _ _ _ _ _ => trivial) hs hl
  obtain ⟨c, s₁, -, hp⟩ := h₀.sent
  have hlook : (rzCellAt s₀ o).e.lookup = true := by
    cases rzPrepare_sent (Prod.mk.inj hp).2 with
    | rem h => exact h
  obtain ⟨a, u, ha, hu⟩ := (rzEle_rwClosed h₀.reach o).add_above hlook
    ((hiff (.rem t)).mpr ⟨hsent _ ht, hlt⟩)
  have hbefore := (hiff (.add a u)).mp ha
  exact ⟨a, u, hd.closed _ ht' _ hbefore.1 hbefore.2, hu⟩

/-- Between two removes of an element of the list one of which saw the other there is an insert. -/
theorem rl_addBetween {s : Sys (Fin n) (Option (RlSt n)) (RlMsg n)}
    (hs : (rlObj n).Reach rlGuard s) {r : Fin n} {x : RlSt n} (hx : s.st r = some x) (k : Sds) :
    AddBetween (rlOn k x.hist) := by
  intro t t' ht ht' hlt
  obtain ⟨m, hm, hmk, hmt⟩ := mem_rlOn.mp ht
  obtain ⟨m', hm', hmk', hmt'⟩ := mem_rlOn.mp ht'
  have hT : m.t = t := by rw [← RlMsg.toRw_t, hmt]; rfl
  have hT' : m'.t = t' := by rw [← RlMsg.toRw_t, hmt']; rfl
  obtain ⟨-, -, hd⟩ := rl_local hs hx
  have hH := (rl_hist hs hx).1
  obtain ⟨i, o, hl⟩ := hH.mem m' hm'
  obtain ⟨s₀, h₀, hiff⟩ := View.sentAt (v := rlView n) (fun _ => rfl) (fun _ _ _ _ h => h) hs hl
  obtain ⟨c, s₁, hg, hp⟩ := h₀.sent
  obtain ⟨y, ht₀, hy, -, -, -, -, -, -, hres⟩ :=
    rlObj_prepare_cases ((rl_causal h₀.reach).2 o) hg.1 hp
  obtain ⟨m₀, he, hsm⟩ := hres.resolve_left nofun
  obtain rfl := Option.some.inj he
  have hlook : (y.ht.node k).body.lookup = true := by
    cases hsm with
    | insert _ _ _ => cases hmt'
    | update _ => cases hmt'
    | rem h => exact hmk' ▸ h
  have hhist : ((rlView n).st o (s₀.st o)).app.hist = y.hist := by rw [hy]; rfl
  rw [hhist] at hiff
  have hmem : m ∈ y.hist := (hiff m).mpr ⟨hH.mem m hm, by
    show m.t.vector < m'.t.vector
    rwa [hT, hT']⟩
  obtain ⟨a, u, ha, hu⟩ := (rl_rwClosed h₀.reach hy k).add_above hlook
    (mem_rlOn.mpr ⟨m, hmem, hmk, hmt⟩)
  obtain ⟨b, hb, hbk, hbt⟩ := mem_rlOn.mp ha
  have hbefore := (hiff b).mp hb
  exact ⟨a, u, mem_rlOn.mpr ⟨b, hd.closed m' hm' b hbefore.1 hbefore.2, hbk, hbt⟩, hu⟩

/-- **Records are concurrent**: in every run of the queue and of the list, with every order of
reception, the timestamps that an element stores in `aset` and `rset` are pairwise incomparable and
come from different replicas. The commands of the list name none of the table's own names. -/
theorem records_concurrent {n' : ℕ} {s : Sys (Fin n) (Sds → Option (RzCell n)) (Sds × RzMsg n)}
    {s' : Sys (Fin n') (Option (RlSt n')) (RlMsg n')} (hs : (rzObj n).Reach anyOrder s)
    (hs' : (rlObj n').Reach rlGuard s') :
    (∀ k r, ((rzCellAt (rzOn s k) r).e.sets.stamps (rzKind n)).Pairwise Apart) ∧
    ∀ r, ∃ x, s'.st r = some x ∧ ∀ k, ((x.ht.node k).body.stamps (rlKind n')).Pairwise Apart := by
  refine ⟨fun k r => ?_, fun r => ?_⟩
  · have hk : (rzEleObj n).Reach anyOrder (rzOn s k) :=
      (keyedView _ k).reach_any (fun _ _ _ => trivial) hs
    exact (rzEle_rwClosed hk r).apart (rzEle_hist hk r).1 (rzEle_addBetween hk r)
  · obtain ⟨x, hx, -⟩ := (rl_causal hs').2 r
    exact ⟨x, hx, fun k =>
      (rl_rwClosed hs' hx k).apart (rl_causalHist hs' hx k) (rl_addBetween hs' hx k)⟩

/-- Two adds are concurrent. -/
def rzTwoAdds : List (Ev (Fin 2) (Sds × ZCmd)) :=
  [.op 0 (['a'], .zadd 4 (some 5)) 0, .op 1 (['a'], .zadd 4 (some 7)) 1, .recv 0 1]

/-- Two removes of an element are concurrent. -/
def rlTwoRemoves : List (Ev (Fin 2) LCmd) :=
  [.op 0 (insertFront "a".toList 5) 0, .recv 1 0, .op 0 (.rem 3 "a".toList) 1,
    .op 1 (.rem 3 "a".toList) 2, .recv 0 2]

/-- The hypotheses hold of these runs, in which replica 0 stores two adds of the element of the
queue and two removes of the element of the list. -/
theorem records_concurrent_demo :
    let sets := (rzCellAt (rzOn ((rzObj 2).runOf rzTwoAdds) ['a']) 0).e.sets
    (sets.aset.length = 2 ∧ (sets.stamps (rzKind 2)).Pairwise Apart) ∧
      ∃ x, ((rlObj 2).runOf rlTwoRemoves).st 0 = some x ∧
        (x.ht.node "a".toList).body.rset.length = 2 ∧
        ((x.ht.node "a".toList).body.stamps (rlKind 2)).Pairwise Apart := by
  intro sets
  obtain ⟨hrz, hrl⟩ := records_concurrent
    (Obj.reach_runOf (g := fun _ _ => true) (fun _ _ _ => trivial) rzTwoAdds (by decide))
    (Obj.reach_runOf rlGuard_of_ok rlTwoRemoves (by decide +kernel))
  obtain ⟨x, hx, hx'⟩ := hrl 0
  have hlen : (((rlObj 2).runOf rlTwoRemoves).st 0).map
      (fun x => (x.ht.node "a".toList).body.rset.length) = some 2 := by decide +kernel
  rw [hx, Option.map_some, Option.some.injEq] at hlen
  exact ⟨⟨by decide +kernel, hrz ['a'] 0⟩, x, hx, hlen, hx' "a".toList⟩

/-- The remove of `head` at replica 0 is a remove of `b` at replica 1, where `b` is the first
element; replica 0 then removes `b` itself. -/
def rlHeadTwiceRun : List (Ev (Fin 2) LCmd) :=
  [.op 0 (insertFront "a".toList 5) 0, .op 1 (insertFront "b".toList 0) 1,
    .op 0 (.rem 3 "head".toList) 2, .recv 0 1, .op 0 (.rem 3 "b".toList) 3,
    .recv 1 0, .recv 1 2, .recv 1 3]

/-- **A name of the table's own breaks this**: replica 1 stores two removes of one origin. -/
theorem records_comparable : ∃ s, (rlObj 2).Reach (fun s e => fifo s e ∧ rlUnique s e) s ∧
    ∃ x t t', s.st 1 = some x ∧ (x.ht.node "b".toList).body.rset = [t, t'] ∧
      t.vector < t'.vector ∧ t.id = t'.id := by
  refine ⟨(rlObj 2).runOf rlHeadTwiceRun, Obj.reach_runOf
    (g := fun s e => Obj.fifoOk s e && rlUniqueOk s e) (fun s e h => ?_) _ (by decide +kernel), ?_⟩
  · simp only [Bool.and_eq_true] at h
    exact ⟨Obj.fifo_of_fifoOk s e h.1, rlUnique_of_ok s e h.2⟩
  · have h : (((rlObj 2).runOf rlHeadTwiceRun).st 1).map (fun x =>
        decide ((x.ht.node "b".toList).body.rset.length = 2 ∧
          (x.ht.node "b".toList).body.rset.Pairwise fun t t' =>
            (∀ i, t.vector i ≤ t'.vector i) ∧ t.vector ≠ t'.vector ∧ t.id = t'.id)) =
        some true := by
      decide +kernel
    obtain ⟨x, hx, h⟩ := Option.map_eq_some_iff.mp h
    obtain ⟨hlen, hpair⟩ := of_decide_eq_true h
    obtain ⟨t, t', hr⟩ := List.length_eq_two.mp hlen
    rw [hr, List.pairwise_pair] at hpair
    obtain ⟨hle, hne, hid⟩ := hpair
    exact ⟨x, t, t', hx, hr, lt_of_le_of_ne hle hne, hid⟩

end CrdtRedis
