import CrdtRedis.RList.Convergence
import CrdtRedis.RwfList.Order

/-!
# Order and intention of the lists

Both list types take the place of a new element from its identifier, so what they promise about
places is the same, and is proved from the same facts (`InsLog`, `OfInserts`).

* `list_order`: in every run, every replica's chain has the elements with a place in the order of
  their identifiers, so replicas agree on the order of their common elements.
* `insert_intention`: an insert puts its element right after the one that it names, and no replica
  ever has them the other way round.

The Remove-Win list buffers what it receives, but a command's own message is applied at once and
releases nothing (`rl_own`).
-/

namespace CrdtRedis

open Broadcast Ht Linked

variable {n : ℕ} {X : Type}

/-! ## Order -/

/-- The chain of every replica has its elements in the order of their identifiers, the identifiers
come from inserts `sent` and belong to one element each, and replicas have one order. -/
structure OrderAgreed (st : Fin n → Option (Ht n X)) (sent : Ins → Prop) : Prop where
  chain : ∀ r, ∃ ht l, st r = some ht ∧ Increasing ht l
  placed : ∀ r ht, st r = some ht → ∀ k x, (ht.node k).posId = some x →
    ∃ i, sent i ∧ i.id = k ∧ i.pos = x
  differ : ∀ i j, sent i → sent j → i.id ≠ j.id → i.pos ≠ j.pos
  agree : ∀ r q ht ht' l l', st r = some ht → st q = some ht' → Chain ht.nexts ht.headD l →
    Chain ht'.nexts ht'.headD l' → ∀ a b, a ∈ l → b ∈ l → a ∈ l' → b ∈ l' →
      ([a, b].Sublist l ↔ [a, b].Sublist l')

/-- Lists that are made by the inserts of a run. -/
theorem OrderAgreed.of_inserts {st : Fin n → Option (Ht n X)} {sent : Ins → Prop}
    (hL : InsLog sent) (h : ∀ r, ∃ ht, st r = some ht ∧ Sound ht ∧ OfInserts sent ht) :
    OrderAgreed st sent := by
  have hof : ∀ r ht, st r = some ht → OfInserts sent ht := fun r ht hst => by
    obtain ⟨ht', hst', -, hof⟩ := h r
    exact Option.some.inj (hst'.symm.trans hst) ▸ hof
  refine ⟨fun r => ?_, fun r ht hst => (hof r ht hst).placed,
    fun i j hi hj hne heq => hne (hL.pos i j hi hj heq), ?_⟩
  · obtain ⟨ht, hst, hs, hof⟩ := h r
    obtain ⟨l, hl⟩ := hof.ordered
    exact ⟨ht, l, hst, hl.increasing hs⟩
  · intro r q ht ht' l l' hst hst' hc hc' a b ha hb ha' hb'
    obtain ⟨l₁, hl₁⟩ := (hof r ht hst).ordered
    obtain ⟨l₂, hl₂⟩ := (hof q ht' hst').ordered
    obtain rfl := hl₁.listed.chain.unique hc
    obtain rfl := hl₂.listed.chain.unique hc'
    exact (hof r ht hst).agree (hof q ht' hst') hL hl₁ hl₂ ha hb ha' hb'

section Runs

variable (junk : Fin n → Sds → Normal → BitVec 32)

theorem rwfl_ofInserts {junk : Fin n → Sds → Normal → BitVec 32}
    {s : Sys (Fin n) (Option (RwfHt n)) (RwflMsg n)}
    (hs : (rwflObj n junk).Reach (rwflListGuard junk) s) (r : Fin n) :
    ∃ ht, s.st r = some ht ∧ Sound ht ∧ OfInserts (rwflIns s) ht := by
  obtain ⟨ht, hst, -, hsd⟩ := (rwfl_typed (hs.mono fun _ _ h => h.1)).1 r
  exact ⟨ht, hst, hsd, ((rwfl_places hs).list r ht hst).1⟩

/-- The list of a replica of the Remove-Win type. -/
def rlHt (s : Option (RlSt n)) : Option (RlHt n) := s.map RlSt.ht

/-- The insert of an operation. -/
def RlMsg.insOf : RlMsg n → Option Ins
  | .insert prev id _ _ pos _ => some ⟨prev, id, pos⟩
  | _ => none

theorem rlHt_some {s : Option (RlSt n)} {ht : RlHt n} (h : rlHt s = some ht) :
    ∃ x, s = some x ∧ x.ht = ht := Option.map_eq_some_iff.mp h

/-- **The order of the lists**: in every run of the RWF list, with every order of delivery, and of
the Remove-Win list, with every order of reception, the chain of every replica has the elements with
a place, each once, in increasing order of their identifiers, which are different; so any two
replicas order their common elements in the same way. -/
theorem list_order :
    (∀ s, (rwflObj n junk).Reach (rwflListGuard junk) s → OrderAgreed s.st (rwflIns s)) ∧
    ∀ s, (rlObj n).Reach rlListGuard s →
      OrderAgreed (fun r => rlHt (s.st r)) (rlIns (broadcasts s)) := by
  refine ⟨fun s hs => ?_, fun s hs => ?_⟩
  · exact .of_inserts (rwfl_places hs).log fun r => rwfl_ofInserts hs r
  · refine .of_inserts (rl_insLog hs) fun r => ?_
    obtain ⟨x, hx, htr, -⟩ := (rl_causal (rlGuard_of_list hs)).2 r
    exact ⟨x.ht, by simp [rlHt, hx], htr.sound, rl_ofInserts hs hx⟩

/-- The conditions hold of runs in which a readd overtakes its insert, and operations are
buffered. -/
theorem list_order_demo :
    (let s := (rwflObj 3 fun _ _ _ => 0).runOf rwflOrderDemo; OrderAgreed s.st (rwflIns s)) ∧
    let s := (rlObj 2).runOf rlDemo
    OrderAgreed (fun r => rlHt (s.st r)) (rlIns (broadcasts s)) :=
  ⟨(list_order _).1 _ (Obj.reach_runOf (rwflListGuard_of_ok _) _ (by decide +kernel)),
    (list_order fun _ _ _ => 0).2 _ (Obj.reach_runOf rlListGuard_of_ok _ (by decide +kernel))⟩

/-! ## Intention -/

/-- The insert is what the command asks for: after the element that it names, or at the front. -/
def LCmd.asks (o : LCmd) (i : Ins) : Prop :=
  match o with
  | .insert _ prev id .. =>
    i.id = id ∧ (i.prev = prev ∨ (i.prev = sdstolower prev ∧ strEq i.prev nullWord))
  | _ => False

/-- Every fresh insert of a run of `P` that is acknowledged puts its element right after the one
that it names, or first if that is `null`, and in every later state no replica has them the other
way round. -/
def KeepsIntention {S M : Type} (P : Obj (Fin n) S LCmd M)
    (G : Sys (Fin n) S M → Ev (Fin n) LCmd → Prop) (list : S → Option (Ht n X))
    (ins : M → Option Ins) : Prop :=
  ∀ s s₁ r o i m x, P.Reach G s → G s (.op r o i) → P.step s (.op r o i) = some s₁ →
    s.log i = none → s₁.log i = some (r, m) → ins m = some x → strEq x.prev readdWord = false →
    o.asks x ∧ (∃ ht, list (s₁.st r) = some ht ∧ InsertedAfter ht x.prev x.id) ∧
    ∀ es s', P.run es s₁ = some s' → P.Reach G s' → ∀ q ht l, list (s'.st q) = some ht →
      Chain ht.nexts ht.headD l → x.prev ∈ l → x.id ∈ l → [x.prev, x.id].Sublist l

/-- A command asks for the insert that it sends. -/
theorem asks_of_prevSent {present : X → Bool} {ht : Ht n X} {argc : ℕ} {prev prev' id content : Sds}
    {font size color property : Option (BitVec 64)} {rand : ℕ} {pos : Leid}
    (hprev : PrevSent present ht prev prev') (hre : strEq prev' readdWord = false) :
    LCmd.asks (.insert argc prev id content font size color property rand) ⟨prev', id, pos⟩ := by
  refine ⟨rfl, ?_⟩
  rcases hprev with ⟨rfl, -⟩ | ⟨rfl, -, hw⟩
  · exact .inl rfl
  · exact .inr ⟨rfl, hw.resolve_right (by simp [hre])⟩

/-- An accepted command that sends a message. -/
theorem step_issue {S M : Type} {P : Obj (Fin n) S LCmd M} {s s₁ : Sys (Fin n) S M} {r : Fin n}
    {o : LCmd} {i : ℕ} {m : M} (h : P.step s (.op r o i) = some s₁) (hl : s.log i = none)
    (hm : s₁.log i = some (r, m)) :
    ∃ x₁, P.prepare r (s.st r) o = (x₁, some m) ∧ s₁ = P.issue s r i x₁ m := by
  obtain ⟨r', o', i', x₁, he, hp, rfl⟩ | ⟨r', o', i', x₁, m', he, hp, -, rfl⟩ |
    ⟨r', i', o', m', he, -⟩ := Obj.step_cases h
  · rw [Obj.reject_log, hl] at hm
    cases hm
  · cases he
    rw [Obj.issue_log_self] at hm
    cases hm
    exact ⟨x₁, hp, rfl⟩
  · cases he

theorem rwfl_intention :
    KeepsIntention (rwflObj n junk) (rwflListGuard junk) (fun ht => ht) RwflMsg.ins := by
  intro s s₁ r o i m x hs hg hstep hl hm hx hre
  obtain ⟨x₁, hp, rfl⟩ := step_issue hstep hl hm
  have hI := rwfl_places hs
  have hs₁ : (rwflObj n junk).Reach (rwflListGuard junk) ((rwflObj n junk).issue s r i x₁ m) :=
    .step _ hs hg hstep
  have hnull : strEq x.id nullWord = false := (rwfl_places hs₁).log.null x ⟨i, r, m, hm, hx⟩
  obtain ⟨ht, ht', ht₂, hst, rfl, hsd, hsame, hsent, hstep', hst₂⟩ :=
    rwfl_issue (hs.mono fun _ _ h => h.1) hg.1 hp
  cases hsent with
  | @insert argc prev prev' id content _ _ _ _ rand args pos hargs hprev hpos =>
    cases hx
    have hre : strEq prev' readdWord = false := hre
    refine ⟨asks_of_prevSent hprev hre, ⟨ht₂, hst₂ i, ?_⟩, ?_⟩
    · obtain ⟨hoid, -, -, rfl⟩ := hpos.sent.resolve_right fun h => by simp [hre] at h
      have hof := (hI.list r ht hst).1
      have hnone : (ht.node id).posId = none := by simpa [hoid] using (hsd.oid id).symm
      have hadd := (hstep'.place.2 (by rw [hsame.node, hoid])).congr_left hsame.kept
      exact hof.insertedAfter hI.log hadd hnone hnull hprev hre
    · intro es s' hrun hs' q ht₁ l hst₁ hc
      exact ((rwfl_places hs').list q ht₁ hst₁).1.before (rwfl_places hs').log
        ⟨i, r, _, Obj.run_log hrun hm, rfl⟩ hc
  | update _ _ => cases hx
  | rem _ _ => cases hx

/-- A command's own operation is applied at once, and releases none of the buffer. -/
theorem rl_own {s : Sys (Fin n) (Option (RlSt n)) (RlMsg n)} {r : Fin n} {x : RlSt n} {ht' : RlHt n}
    {m : RlMsg n} (hs : (rlObj n).Reach rlGuard s) (hx : s.st r = some x)
    (htr : RlTrace r ht' x.hist) (hc : ht'.clock = x.ht.clock) (hm : m.Ok)
    (ht : m.t = vcNow x.ht.clock) :
    ∃ y ht₁, rlEffect { x with ht := ht' } m = some y ∧ RlStep ht'.withClock ht₁ m ∧
      SameList ht₁ y.ht := by
  obtain ⟨hcinv, -⟩ := rl_causal hs
  have hid : x.ht.clock.id = r := (rl_local hs hx).1.clock_id
  have hst : (rlCausal s).st r = ⟨⟨x.ht.clock.vector, x.hist⟩, x.ops⟩ := by
    simp [rlCausal, rlView, hx, rlApp]
  have hT : (rlStamp n).t m = Stamp.next ((rlCausal s).st r).app r := by
    simp only [rlStamp, ht, vcNow, Stamp.next, hst, hid]
  have hready : vcCausallyReady ht'.clock m.t = true := by
    have := ready_of_next (T := rlStamp n) (by simp [rlStamp, ht, hid]) hT
    rw [hst] at this
    rw [hc]
    exact this
  obtain ⟨ht₁, he, hstep⟩ := rlExec_step htr.withClock.typed htr.withClock.sound hm
  have htd := hstep.typed.withOps (by decide)
  -- The loop finds nothing to apply.
  have hquiet : x.ops.find? (rlReady (some ⟨ht₁.withOps.withClock, x.ops, x.hist ++ [m]⟩)) =
      none := by
    refine List.find?_eq_none.mpr fun y hy => ?_
    have hw := hs.wf
    have hq := hcinv.quiet_next ⟨hw.own, hw.log, hw.sent⟩ hT y (by rw [hst]; exact hy)
    rw [hst] at hq
    refine Bool.eq_false_iff.mp (Eq.trans ?_ hq)
    simp only [rlReady, Option.any_some, withClock_clock, withOps_clock, hstep.clock, hc]
    simp only [vcCausallyReady, vcUpdate_vector]
    rfl
  refine ⟨⟨ht₁.withOps.withClock, x.ops, x.hist ++ [m]⟩, ht₁, ?_, hstep,
    (SameList.withOps ht₁).trans (.withClock _)⟩
  simp [rlEffect, htr.typed.getCurrent_eq, hready, RlSt.exec, he, rlNotify,
    hstep.typed.getOps_eq (by decide), htd.getCurrent_eq, drain_none hquiet]

theorem rl_intention : KeepsIntention (rlObj n) rlListGuard rlHt RlMsg.insOf := by
  intro s s₁ r o i m x hs hg hstep hl hm hx hre
  obtain ⟨x₁, hp, rfl⟩ := step_issue hstep hl hm
  have hsg := rlGuard_of_list hs
  have hs₁ : (rlObj n).Reach rlListGuard ((rlObj n).issue s r i x₁ m) := .step _ hs hg hstep
  obtain ⟨y, ht', hst, rfl, htr, htr', -, hsame, hc, hres⟩ :=
    rlObj_prepare_cases ((rl_causal hsg).2 r) hg.1.1 hp
  obtain ⟨m', hm', hsent⟩ := hres.resolve_left (by simp)
  obtain rfl := Option.some.inj hm'
  have hok : m.Ok := hsent.ok htr.sound hg.1.1 (hg.1.2 (by rw [hp]; rfl) y hst)
  obtain ⟨z, ht₁, he, hstep', hown⟩ := rl_own hsg hst htr' hc hok hsent.t
  cases hsent with
  | @insert argc prev prev' id content _ _ _ _ rand args pos hargs hprev hpos =>
    cases hx
    have hre : strEq prev' readdWord = false := hre
    have hfresh : ∀ sent : RlMsg n → Prop,
        sent (.insert prev' id content args pos (vcNow y.ht.clock)) → rlIns sent ⟨prev', id, pos⟩ :=
      fun sent hb => ⟨_, ⟨prev', content, pos⟩, hb, RlMsg.fresh_some.mpr ⟨rfl, hre⟩, rfl⟩
    have hnull : strEq id nullWord = false := (rl_insLog hs₁).null _ (hfresh _ ⟨i, r, hm⟩)
    refine ⟨asks_of_prevSent hprev hre, ⟨z.ht, by simp [rlHt, rlObj, he], ?_⟩, ?_⟩
    · obtain ⟨hoid, -, -, rfl⟩ := hpos.sent.resolve_right fun h => by simp [hre] at h
      have hnone : (y.ht.node id).posId = none := by
        simpa [hoid] using ((rl_local hsg hst).1.sound.oid id).symm
      have hsame' := hsame.trans (.withClock ht')
      have hadd := ((hstep'.place.2 (by rw [hsame'.node, hoid])).congr_left hsame'.kept).congr_right
        hown.kept
      exact (rl_ofInserts hs hst).insertedAfter (rl_insLog hs) hadd hnone hnull hprev hre
    · intro es s' hrun hs' q ht₁ l hst₁ hc
      obtain ⟨w, hw, rfl⟩ := rlHt_some hst₁
      exact (rl_ofInserts hs' hw).before (rl_insLog hs') (hfresh _ ⟨i, r, Obj.run_log hrun hm⟩) hc
  | update _ => cases hx
  | rem _ => cases hx

/-- **The intention of inserts**: in every run of both lists, an acknowledged fresh insert puts its
element right after the one that it names, or first if that is `null`, and from then on no replica
has them the other way round. -/
theorem insert_intention :
    KeepsIntention (rwflObj n junk) (rwflListGuard junk) (fun ht => ht) RwflMsg.ins ∧
      KeepsIntention (rlObj n) rlListGuard rlHt RlMsg.insOf :=
  ⟨rwfl_intention junk, rl_intention⟩

/-- A concrete run, with the insert after the events `es`. -/
theorem KeepsIntention.of_run {S M : Type} {P : Obj (Fin n) S LCmd M}
    {G : Sys (Fin n) S M → Ev (Fin n) LCmd → Prop} {list : S → Option (Ht n X)}
    {ins : M → Option Ins} {g : Sys (Fin n) S M → Ev (Fin n) LCmd → Bool}
    (h : KeepsIntention P G list ins) (hg : ∀ s e, g s e = true → G s e)
    (es es' : List (Ev (Fin n) LCmd)) (r : Fin n) (o : LCmd) (i : ℕ) (prev id : Sds)
    (hok : P.runOk g ((es ++ [.op r o i]) ++ es') P.start = true)
    (hok₁ : P.runOk g (es ++ [.op r o i]) P.start = true) (hok₀ : P.runOk g es P.start = true)
    (hnext : g (P.runOf es) (.op r o i) = true) (hl : (P.runOf es).log i = none)
    (hm : ((P.runOf (es ++ [.op r o i])).log i).map (fun p => (p.1, (ins p.2).map fun x =>
      (x.prev, x.id))) = some (r, some (prev, id))) (hre : strEq prev readdWord = false) :
    (∃ ht, list ((P.runOf (es ++ [.op r o i])).st r) = some ht ∧ InsertedAfter ht prev id) ∧
    ∀ q ht l, list ((P.runOf ((es ++ [.op r o i]) ++ es')).st q) = some ht →
      Chain ht.nexts ht.headD l → prev ∈ l → id ∈ l → [prev, id].Sublist l := by
  obtain ⟨⟨r', m⟩, hlog, heq⟩ := Option.map_eq_some_iff.mp hm
  obtain ⟨rfl, hx⟩ := Prod.mk.inj heq
  obtain ⟨x, hins, heq⟩ := Option.map_eq_some_iff.mp hx
  obtain ⟨rfl, rfl⟩ := Prod.mk.inj heq
  have hstep := Obj.run_runOf es [.op r' o i] hok₁
  simp only [Obj.run, Option.bind_fun_some] at hstep
  obtain ⟨-, h₁, h₂⟩ := h _ _ r' o i m x (Obj.reach_runOf hg es hok₀) (hg _ _ hnext) hstep hl hlog
    hins hre
  exact ⟨h₁, h₂ es' _ (Obj.run_runOf _ es' hok) (Obj.reach_runOf hg _ hok)⟩

/-- Two inserts after one element; the other replica gets the second one first. -/
def rlOrderDemo : List (Ev (Fin 2) LCmd) :=
  let a : Sds := "a".toList
  [.op 0 (insertFront a 5) 0, .recv 1 0,
    .op 1 (.insert 9 a "b".toList "c".toList (some 2) (some 2) (some 2) (some 0) 3) 1,
    .op 1 (.insert 9 a "d".toList "c".toList (some 2) (some 2) (some 2) (some 0) 1) 2,
    .recv 0 2, .recv 0 1]

/-- An insert after an element, and what follows it, in both lists. -/
theorem insert_intention_demo :
    let a : Sds := "a".toList
    let b : Sds := "b".toList
    ((∃ ht, ((rwflObj 3 fun _ _ _ => 0).runOf (rwflOrderDemo.take 3)).st 1 = some ht ∧
      InsertedAfter ht a b) ∧
    ∀ q ht l, ((rwflObj 3 fun _ _ _ => 0).runOf rwflOrderDemo).st q = some ht →
      Chain ht.nexts ht.headD l → a ∈ l → b ∈ l → [a, b].Sublist l) ∧
    (∃ ht, rlHt (((rlObj 2).runOf (rlOrderDemo.take 3)).st 1) = some ht ∧
      InsertedAfter ht a b) ∧
    ∀ q ht l, rlHt (((rlObj 2).runOf rlOrderDemo).st q) = some ht →
      Chain ht.nexts ht.headD l → a ∈ l → b ∈ l → [a, b].Sublist l :=
  ⟨(insert_intention fun _ _ _ => 0).1.of_run (rwflListGuard_of_ok _) (rwflOrderDemo.take 2)
      (rwflOrderDemo.drop 3) 1
      (.insert 9 "a".toList "b".toList "c".toList (some 2) (some 2) (some 2) (some 0) 3) 1
      "a".toList "b".toList (by decide +kernel) (by decide +kernel) (by decide +kernel)
      (by decide +kernel) (by decide +kernel) (by decide +kernel) (by decide),
    (insert_intention fun _ _ _ => 0).2.of_run rlListGuard_of_ok (rlOrderDemo.take 2)
      (rlOrderDemo.drop 3) 1
      (.insert 9 "a".toList "b".toList "c".toList (some 2) (some 2) (some 2) (some 0) 3) 1
      "a".toList "b".toList (by decide +kernel) (by decide +kernel) (by decide +kernel)
      (by decide +kernel) (by decide +kernel) (by decide +kernel) (by decide)⟩

end Runs

end CrdtRedis
