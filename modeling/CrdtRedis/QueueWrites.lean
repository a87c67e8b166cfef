import CrdtRedis.OZset.Pointers
import CrdtRedis.RZset
import CrdtRedis.RwfZset

/-!
# Writes to the three queues, where they are issued

A command of a queue is accepted or rejected by what its replica has, and an accepted one is applied
there at once. `WritesOk` says what this does to an element, in terms of the type's own test for
presence and of the score in the metadata: an add is accepted iff the element is absent and gives it
its score, an increment and a remove are accepted iff it is present.

`queue_writes`: this holds in every reachable state of the three queues.

* Remove-Win: the new timestamp is above all that the element stores (`rzEle_fresh`), and makes no
  buffered operation ready.
* RWF: an absent element has `acquired = 0`.
* Add-Win: the tag of an add is new (`ozEle_newTag`), and an increment of all live tags adds to the
  one that `acquired` shows, whichever it is afterwards.
-/

namespace CrdtRedis

open Broadcast

variable {n : ℕ}

/-- What the commands `cmd` do in state `x` of replica `r`. -/
structure WritesOk {S O M : Type} (P : Obj (Fin n) S O M) (cmd : ZCmd → O) (lookup : S → Bool)
    (score : S → Option ℚ) (r : Fin n) (x : S) : Prop where
  add_iff : ∀ v, (P.prepare r x (cmd (.zadd 4 (some v)))).2.isSome ↔ lookup x = false
  incr_iff : ∀ v, (P.prepare r x (cmd (.zincrby 4 (some v)))).2.isSome ↔ lookup x = true
  rem_iff : (P.prepare r x (cmd (.zrem 3))).2.isSome ↔ lookup x = true
  add : ∀ v x₁ m, P.prepare r x (cmd (.zadd 4 (some v))) = (x₁, some m) →
    lookup (P.effect r x₁ m) = true ∧ score (P.effect r x₁ m) = some v
  incr : ∀ v x₁ m, P.prepare r x (cmd (.zincrby 4 (some v))) = (x₁, some m) →
    ∃ w, score x = some w ∧ score (P.effect r x₁ m) = some (w + v)
  rem : ∀ x₁ m, P.prepare r x (cmd (.zrem 3)) = (x₁, some m) → lookup (P.effect r x₁ m) = false

/-- A queue, from its elements. -/
theorem WritesOk.keyed {S M : Type} (P : Sds → Obj (Fin n) S ZCmd M) {lookup : S → Bool}
    {score : S → Option ℚ} {r : Fin n} (x : Sds → S) (k : Sds)
    (h : WritesOk (P k) id lookup score r (x k)) :
    WritesOk (Obj.keyed P) (k, ·) (fun x => lookup (x k)) (fun x => score (x k)) r x := by
  -- A command of the queue on `k` is one of the element.
  have hcmd : ∀ {c x₁ m}, (Obj.keyed P).prepare r x (k, c) = (x₁, some m) →
      ∃ y m', (P k).prepare r (x k) c = (y, some m') ∧
        (Obj.keyed P).effect r x₁ m k = (P k).effect r y m' := by
    intro c x₁ m hp
    simp only [Obj.keyed, Prod.mk.injEq, Option.map_eq_some_iff] at hp
    obtain ⟨rfl, m', hm', rfl⟩ := hp
    exact ⟨_, m', Prod.ext rfl hm', by simp [Obj.keyed]⟩
  refine ⟨fun v => ?_, fun v => ?_, ?_, fun v x₁ m hp => ?_, fun v x₁ m hp => ?_, fun x₁ m hp => ?_⟩
  · simpa [Obj.keyed] using h.add_iff v
  · simpa [Obj.keyed] using h.incr_iff v
  · simpa [Obj.keyed] using h.rem_iff
  · obtain ⟨y, m', hp', he⟩ := hcmd hp
    rw [he]; exact h.add v y m' hp'
  · obtain ⟨y, m', hp', he⟩ := hcmd hp
    rw [he]; exact h.incr v y m' hp'
  · obtain ⟨y, m', hp', he⟩ := hcmd hp
    rw [he]; exact h.rem y m' hp'

/-- From the two outcomes of each command. -/
theorem WritesOk.of_cases {S O M : Type} {P : Obj (Fin n) S O M} {cmd : ZCmd → O}
    {lookup : S → Bool} {score : S → Option ℚ} {r : Fin n} {x : S}
    (hadd : ∀ v, ∃ x₁ m, P.prepare r x (cmd (.zadd 4 (some v))) =
      (x₁, if lookup x then none else some m) ∧ (lookup x = false →
        lookup (P.effect r x₁ m) = true ∧ score (P.effect r x₁ m) = some v))
    (hincr : ∀ v, ∃ m, P.prepare r x (cmd (.zincrby 4 (some v))) =
      (x, if lookup x then some m else none) ∧ (lookup x = true →
        ∃ w, score x = some w ∧ score (P.effect r x m) = some (w + v)))
    (hrem : ∃ m, P.prepare r x (cmd (.zrem 3)) = (x, if lookup x then some m else none) ∧
      (lookup x = true → lookup (P.effect r x m) = false)) :
    WritesOk P cmd lookup score r x := by
  refine ⟨fun v => ?_, fun v => ?_, ?_, fun v x₁ m hp => ?_, fun v x₁ m hp => ?_, fun x₁ m hp => ?_⟩
  · obtain ⟨x₁, m, hp, -⟩ := hadd v
    rw [hp]
    cases lookup x <;> simp
  · obtain ⟨m, hp, -⟩ := hincr v
    rw [hp]
    cases lookup x <;> simp
  · obtain ⟨m, hp, -⟩ := hrem
    rw [hp]
    cases lookup x <;> simp
  · obtain ⟨x₁', m', hp', h⟩ := hadd v
    rw [hp'] at hp
    obtain ⟨rfl, hm⟩ := Prod.mk.inj hp
    obtain ⟨hl, hm⟩ := Option.ite_none_left_eq_some.mp hm
    cases hm
    exact h (by simpa using hl)
  · obtain ⟨m', hp', h⟩ := hincr v
    rw [hp'] at hp
    obtain ⟨rfl, hm⟩ := Prod.mk.inj hp
    obtain ⟨hl, hm⟩ := Option.ite_none_right_eq_some.mp hm
    cases hm
    exact h hl
  · obtain ⟨m', hp', h⟩ := hrem
    rw [hp'] at hp
    obtain ⟨rfl, hm⟩ := Prod.mk.inj hp
    obtain ⟨hl, hm⟩ := Option.ite_none_right_eq_some.mp hm
    cases hm
    exact h hl

/-! ## The RWF queue -/

section Rwfz

variable {r : Fin n} {c : RwfzCell n}

/-- An increment and a remove read an element that was never created as a new one. -/
theorem rwfzPrepare_present (f : Rwfze n → ZCmd × RwfzMsg n)
    (hf : (∃ v, f = fun e => (.zincrby 4 (some v), .upd v e.header.current)) ∨
      f = fun e => (.zrem 3, .rem (vcNow e.header.current))) :
    (rwfzEleObj n).prepare r c (f (c.get r)).1 =
      (c, if (c.get r).header.exists then some (f (c.get r)).2 else none) := by
  have hnew : (rwfzeNew r).header.exists = false := rfl
  cases hc : c.ele with
  | none =>
    have hg : c.get r = rwfzeNew r := by simp [RwfzCell.get, hc]
    rcases hf with ⟨v, rfl⟩ | rfl <;>
      simp [rwfzEleObj, rwfzPrepare, checkArgc, checkArg, hc, hg, hnew, Except.toOption]
  | some e =>
    have hg : c.get r = e := by simp [RwfzCell.get, hc]
    rcases hf with ⟨v, rfl⟩ | rfl <;>
      cases hex : e.header.exists <;>
        simp [rwfzEleObj, rwfzPrepare, checkArgc, checkArg, hc, hg, hex, Except.toOption]

theorem rwfzEle_writes (h : RwfzShown (c.get r) c.zset) :
    WritesOk (rwfzEleObj n) id (fun c => (c.get r).header.exists) (fun c => some (c.get r).score)
      r c := by
  have hle : removeCheck (c.get r).header (c.get r).header.current = ((c.get r).header, false) :=
    removeCheck_of_le le_rfl
  have heq : vcEqual (c.get r).header.current (c.get r).header.current = true := vcEqual_iff.mpr rfl
  refine .of_cases (fun v => ?_) (fun v => ?_) ?_
  · refine ⟨{ c with ele := some (c.get r) }, .add v (c.get r).header.current, ?_, fun hl => ?_⟩
    · simp only [id, rwfzEleObj, rwfzPrepare, checkArgc, checkArg]
      cases (c.get r).header.exists <;> simp [Except.toOption]
    · have hpid : (c.get r).header.pid = PID_NEXIST := by simpa [Reh.exists] using hl
      have hlt : (c.get r).header.pid < ((c.get r).header.current.id : ℕ) := by
        rw [hpid, PID_NEXIST]; omega
      have hg : RwfzCell.get { c with ele := some (c.get r) } r = c.get r := rfl
      simp only [rwfzEleObj, rwfzEffect, hg, RwfMsg.t, rwfzRemoveFunc, hle, addCheck, heq, hlt,
        Bool.not_true, Bool.false_eq_true, if_false, if_true]
      refine ⟨?_, ?_⟩
      · simp only [RwfzCell.get, Option.getD_some, Reh.exists, bne_iff_ne]
        exact (natCast_ne_special _).1
      · show some (v + (c.get r).acquired) = some v
        rw [(h.zero hl).2, add_zero]
  · refine ⟨_, rwfzPrepare_present (fun e => (.zincrby 4 (some v), .upd v e.header.current))
      (.inl ⟨v, rfl⟩), fun hl => ⟨_, rfl, ?_⟩⟩
    simp only [rwfzEleObj, rwfzEffect, RwfMsg.t, rwfzRemoveFunc, hle, updateCheck, heq, hl,
      Bool.not_true, Bool.false_eq_true, if_false]
    simp [RwfzCell.get, Rwfze.score, add_assoc]
  · refine ⟨_, rwfzPrepare_present (fun e => (.zrem 3, .rem (vcNow e.header.current))) (.inr rfl),
      fun hl => ?_⟩
    have hnot : ¬ (vcNow (c.get r).header.current).vector ≤ (c.get r).header.current.vector := by
      intro hc
      have := hc (c.get r).header.current.id
      simp [vcNow] at this
    simp only [rwfzEleObj, rwfzEffect, RwfMsg.t, rwfzRemoveFunc, removeCheck_of_not_le hnot]
    rfl

end Rwfz

/-! ## The Remove-Win queue -/

section Rz

variable {s : Sys (Fin n) (Option (RzCell n)) (RzMsg n)} {r : Fin n}

/-- The next timestamp of an element is above all that it stores. -/
theorem rzEle_fresh (hs : (rzEleObj n).Reach anyOrder s) (r : Fin n) :
    let e := (rzCellAt s r).e
    (∀ a ∈ e.sets.aset, before a.t (vcNow e.current) = true) ∧
      ∀ t ∈ e.sets.rset, before t (vcNow e.current) = true := by
  intro e
  have hloc := (rzEle_causal hs).loc r
  have hcl := rzEle_rwClosed hs r
  have hlt : ∀ m ∈ (rzCellAt s r).hist, before m.t (vcNow e.current) = true := by
    intro m hm
    have hle : m.t.vector ≤ e.current.vector := hloc.le m hm
    rw [before, beq_iff_eq]
    exact vcCmp_of_lt (lt_of_le_of_lt hle (lt_vcNow _))
  refine ⟨fun a ha => ?_, fun t ht => hlt _ ((hcl.rset t).mp ht).1⟩
  obtain ⟨v, t, hv, -, rfl⟩ := (hcl.aset a).mp ha
  rw [rwEntry_rz]
  exact hlt _ hv

/-- A command's own message is applied at once, and releases no other. -/
theorem rzEle_applied (hs : (rzEleObj n).Reach anyOrder s) {m : RzMsg n}
    (ht : m.t = vcNow (rzCellAt s r).e.current) :
    rzEffect r (some (rzCellAt s r)) m = some (rzExec (rzCellAt s r) m) := by
  have hinv := rzEle_causal hs
  have hid : (rzCellAt s r).e.current.id = r :=
    (View.causal_inv (v := rzView n) (fun _ => rfl) (fun _ _ _ _ _ => trivial) hs).2 r
  have hw := hs.wf
  have hT : (rwStamp n ℚ ℚ).t m = Stamp.next (rzCellAt s r).app r := by
    simp only [rwStamp, ht, vcNow, Stamp.next, RzCell.app, hid]
  have hready : rzReady (rzCellAt s r) m = true :=
    ready_of_next (T := rwStamp n ℚ ℚ) (a := (rzCellAt s r).app)
      (by simp [rwStamp, ht, vcNow, hid]) hT
  have hquiet : (rzCellAt s r).e.ops.find? (rzReady (rzExec (rzCellAt s r) m)) = none := by
    refine List.find?_eq_none.mpr fun y hy => ?_
    have hq := hinv.quiet_next ⟨hw.own, hw.log, hw.sent⟩ hT y hy
    rw [← rzExec_app] at hq
    exact Bool.eq_false_iff.mp hq
  have hops := (rzExec_step (rzCellAt s r) m).ops
  simp only [rzEffect, Option.getD_some, if_pos hready, rzNotify, hops, drain_none hquiet]
  rw [← hops]

theorem rzPrepare_present {c : Option (RzCell n)} (f : Rze n → ZCmd × RzMsg n)
    (hf : (∃ v, f = fun e => (.zincrby 4 (some v), .upd v (vcNow e.current))) ∨
      f = fun e => (.zrem 3, .rem (vcNow e.current))) :
    (rzEleObj n).prepare r c (f (c.getD (rzCellNew r)).e).1 =
      (c, if (c.getD (rzCellNew r)).e.lookup then some (f (c.getD (rzCellNew r)).e).2
        else none) := by
  have hnew : (rzCellNew r).e.lookup = false := rfl
  cases c with
  | none =>
    rcases hf with ⟨v, rfl⟩ | rfl <;>
      simp [rzEleObj, rzPrepare, checkArgc, checkArg, hnew, Except.toOption]
  | some c =>
    rcases hf with ⟨v, rfl⟩ | rfl <;>
      cases hl : c.e.lookup <;>
        simp [rzEleObj, rzPrepare, checkArgc, checkArg, hl, Except.toOption]

/-- An increment above the entry that is shown. -/
theorem score_update {e e' : Rze n} {v : ℚ} {w t : Clock n}
    (he : e'.sets = e.sets.update (rzKind n) v t) (hw : e.sets.value = some w)
    (hb : before w t = true) : e'.score = e.score.map (· + v) := by
  have hv : (e.sets.update (rzKind n) v t).value = some w := hw
  rw [Rze.score, he, hv, Option.bind_some, find?_update, Rze.score, hw, Option.bind_some]
  cases e.sets.aset.find? (·.t = w) with
  | none => rfl
  | some a => simp [hb, add_assoc]

theorem rzEle_writes (hs : (rzEleObj n).Reach anyOrder s) (r : Fin n) :
    WritesOk (rzEleObj n) id (fun c => (c.getD (rzCellNew r)).e.lookup)
      (fun c => (c.getD (rzCellNew r)).e.score) r (s.st r) := by
  have hshown := rzEle_shown hs r
  obtain ⟨haset, hrset⟩ := rzEle_fresh hs r
  -- The effect phase of an increment and of a remove finds the element.
  have hst : (rzCellAt s r).e.lookup = true → s.st r = some (rzCellAt s r) := by
    intro hl
    cases hc : s.st r with
    | none => simp only [rzCellAt, hc] at hl; cases hl
    | some c => simp [rzCellAt, hc]
  refine .of_cases (fun v => ?_) (fun v => ?_) ?_
  · refine ⟨some (rzCellAt s r), .add v (vcNow (rzCellAt s r).e.current), ?_, fun hl => ?_⟩
    · simp only [id, rzEleObj, rzPrepare, checkArgc, checkArg, rzCellAt]
      cases ((s.st r).getD (rzCellNew r)).e.lookup <;> simp [Except.toOption]
    · have happ := rzEle_applied hs (r := r) (m := .add v (vcNow (rzCellAt s r).e.current)) rfl
      simp only [rzEleObj, happ, Option.getD_some]
      have hsets := (rzExec_step (rzCellAt s r) (.add v (vcNow (rzCellAt s r).e.current))).sets
      have hs' := hshown.exec (.add v (vcNow (rzCellAt s r).e.current))
      generalize rzExec (rzCellAt s r) (.add v (vcNow (rzCellAt s r).e.current)) = c' at hsets hs' ⊢
      have ha : c'.e.sets.aset = [⟨vcNow (rzCellAt s r).e.current, v, 0⟩] := by
        rw [hsets]
        refine (RwSets.add_aset _ v _).trans ?_
        rw [List.filter_eq_nil_iff.mpr fun a ha' => by
          simp [show before ((rzKind n).stamp a) _ = true from haset a ha']]
        rfl
      have hr' : c'.e.sets.rset = [] := by
        rw [hsets, RwSets.add_rset]
        exact List.filter_eq_nil_iff.mpr fun t ht => by simp [hrset t ht]
      obtain ⟨a, ha', -, hsc⟩ := hs'.score (by rw [ha]; simp)
      rw [ha, List.mem_singleton] at ha'
      exact ⟨by simp [Rze.lookup, RwSets.lookup, ha, hr'], by rw [hsc, ha', add_zero]⟩
  · refine ⟨_, rzPrepare_present (fun e => (.zincrby 4 (some v), .upd v (vcNow e.current)))
      (.inl ⟨v, rfl⟩), fun hl => ?_⟩
    have hl' : (rzCellAt s r).e.lookup = true := hl
    have hne : (rzCellAt s r).e.sets.aset ≠ [] := by
      simp only [Rze.lookup, RwSets.lookup, Bool.and_eq_true, Bool.not_eq_true',
        List.isEmpty_eq_false_iff] at hl'
      exact hl'.1
    obtain ⟨a, ha, hv, hsc⟩ := hshown.score hne
    refine ⟨_, hsc, ?_⟩
    have happ := rzEle_applied hs (r := r) (m := .upd v (vcNow (rzCellAt s r).e.current)) rfl
    rw [← hst hl] at happ
    have hsets := (rzExec_step (rzCellAt s r) (.upd v (vcNow (rzCellAt s r).e.current))).sets
    simp only [rzEleObj]
    rw [show (s.st r).getD (rzCellNew r) = rzCellAt s r from rfl, happ, Option.getD_some,
      score_update hsets hv (haset a ha), hsc]
    rfl
  · refine ⟨_, rzPrepare_present (fun e => (.zrem 3, .rem (vcNow e.current))) (.inr rfl),
      fun hl => ?_⟩
    have happ := rzEle_applied hs (r := r) (m := .rem (vcNow (rzCellAt s r).e.current)) rfl
    rw [← hst hl] at happ
    have hsets := (rzExec_step (rzCellAt s r) (.rem (vcNow (rzCellAt s r).e.current))).sets
    simp only [rzEleObj]
    rw [show (s.st r).getD (rzCellNew r) = rzCellAt s r from rfl, happ, Option.getD_some,
      Rze.lookup, hsets]
    exact RwSets.lookup_remove _ _

end Rz

/-! ## The Add-Win queue -/

section Oz

variable {e : OzTags} {t : Lc} {v : ℚ}

/-- An add of an absent element, with a tag that was not removed. -/
theorem OzWf.add_absent (junk : Lc → ℚ) (hw : OzWf e) (hl : e.lookup = false) (ht : t ∉ e.rset)
    (v : ℚ) : let e' := (e.updateInnateValue junk t v).1
      e'.lookup = true ∧ e'.score = v := by
  have haset : e.aset = [] := by simpa [OzTags.lookup] using hl
  have hinnate : e.innate = none := Option.eq_none_iff_forall_not_mem.mpr fun i hi => by
    simpa [haset] using hw.innate i hi
  have hacquired : e.acquired = none := Option.eq_none_iff_forall_not_mem.mpr fun q hq => by
    simpa [haset] using hw.acquired q hq
  simp [OzTags.updateInnateValue, rsetGet_isSome, ht, haset, hinnate, hacquired, upsert, addAse,
    OzTags.lookup, OzTags.score, OzTags.deref, OzTags.asetGet, tagIs_iff.mpr]

/-- An increment of all live tags. -/
theorem AcqOk.score_increase (junk : Lc → ℚ) (h : AcqOk e) (hw : OzWf e)
    (hinc : ∀ a ∈ e.aset, a.count = 0 → a.inc = 0) (hl : e.lookup = true) (v : ℚ) :
    (ozIncrease junk v e (e.aset.map OzAse.t)).1.score = e.score + v := by
  have hw' : OzWf (ozIncrease junk v e (e.aset.map OzAse.t)).1 := hw.apply none (.inc v _)
  have h' : AcqOk (ozIncrease junk v e (e.aset.map OzAse.t)).1 := h.apply hw none (.inc v _)
  have htag : ∀ t, ozTag (ozIncrease junk v e (e.aset.map OzAse.t)).1 t = _ := fun t =>
    ozTag_increase hw.nodup t
  obtain ⟨hi, -⟩ := ozIncrease_innate junk v (e := e) (e.aset.map OzAse.t)
  generalize (ozIncrease junk v e (e.aset.map OzAse.t)).1 = e' at *
  have hget : ∀ a ∈ e.aset, e'.asetGet a.t = some (OzTags.increase v a) := by
    intro a ha
    have hm := List.mem_map_of_mem (f := OzAse.t) ha
    have hfind : e.asetGet a.t = some a := find?_of_mem hw.nodup ha
    have := htag a.t
    rw [if_pos hm, ozTag, ozTag, tagUpsert, hfind, if_neg (by simpa using hw.live a.t hm)] at this
    exact (Prod.mk.inj this).2
  have hinnate : (e'.deref e'.innate).map OzAse.x = (e.deref e.innate).map OzAse.x := by
    rw [hi]
    cases hd : e.innate with
    | none => rfl
    | some i =>
      obtain ⟨a, ha, rfl⟩ := List.mem_map.mp (hw.innate i hd)
      have hfind : e.asetGet a.t = some a := find?_of_mem hw.nodup ha
      simp [OzTags.deref, hget a ha, hfind, OzTags.increase]
  have hshown : e'.shownInc = e.shownInc + v := by
    refine h.shownInc_add h' hw hw' hinc (fun hnil => ?_) (fun t => ?_) fun a ha a' ha' ht => ?_
    · simp [OzTags.lookup, hnil] at hl
    · rw [mem_tags_iff, htag]
      split
      · rename_i hm
        simp [tagUpsert, ozTag, hw.live t hm, hm]
      · exact mem_tags_iff.symm
    · have hfind := find?_of_mem hw'.nodup ha'
      rw [ht] at hfind
      obtain rfl := Option.some.inj ((hget a ha).symm.trans hfind)
      refine ⟨rfl, ?_⟩
      simp only [OzTags.increase]
      split
      · rename_i hv; rw [abs_of_pos hv]
      · rename_i hv; rw [abs_of_nonpos (not_lt.mp hv)]
  simp only [OzTags.shownInc] at hshown
  rw [OzTags.score, OzTags.score, hinnate, hshown, add_assoc]

variable {junk : Fin n → Lc → ℚ} {s : OzSys n} {G : OzSys n → Ev (Fin n) ZCmd → Prop}

/-- The next tag of a replica is not one that was removed. -/
theorem ozEle_newTag (hs : (ozEleObj n junk).Reach G s) (r : Fin n) :
    (⟨(s.st r).get.current, (r : ℕ)⟩ : Lc) ∉ (s.st r).get.rset := fun ht =>
  lt_irrefl _ (taken_of_mem hs (ozEle_named hs) (.inr ht) r rfl)

theorem ozPrepare_present {r : Fin n} {c : OzCell} (f : OzTags → ZCmd × OzMsg)
    (hf : (∃ v, f = fun e => (.zincrby 4 (some v), .inc v (e.aset.map OzAse.t))) ∨
      f = fun e => (.zrem 3, .rem (e.aset.map OzAse.t))) :
    (ozEleObj n junk).prepare r c (f c.get.toOzTags).1 =
      (c, if c.get.lookup then some (f c.get.toOzTags).2 else none) := by
  have hnew : ozeNew.lookup = false := rfl
  cases hc : c.ele with
  | none =>
    have hg : c.get = ozeNew := by simp [OzCell.get, hc]
    rcases hf with ⟨v, rfl⟩ | rfl <;>
      simp [ozEleObj, ozPrepare, checkArgc, checkArg, hc, hg, hnew, Except.toOption]
  | some e =>
    have hg : c.get = e := by simp [OzCell.get, hc]
    rcases hf with ⟨v, rfl⟩ | rfl <;>
      cases hl : e.lookup <;>
        simp [ozEleObj, ozPrepare, checkArgc, checkArg, hc, hg, hl, Except.toOption]

theorem ozEle_writes (hs : (ozEleObj n junk).Reach G s) (r : Fin n) :
    WritesOk (ozEleObj n junk) id (fun c => c.get.lookup) (fun c => some c.get.score) r
      (s.st r) := by
  have hw := ozEle_wf hs r
  refine .of_cases (fun v => ?_) (fun v => ?_) ?_
  · refine ⟨(ozPrepare r (s.st r) (.zadd 4 (some v))).1,
      .add v ⟨(s.st r).get.current, (r : ℕ)⟩, ?_, fun hl => ?_⟩
    · refine Prod.ext rfl ?_
      simp only [id, ozEleObj, ozPrepare, checkArgc, checkArg]
      cases (s.st r).get.lookup <;> simp [Except.toOption]
    · obtain ⟨hl', hsc⟩ := hw.add_absent (junk r) hl (ozEle_newTag hs r) v
      rw [← ozPrepare_tags r (s.st r) (.zadd 4 (some v))] at hl' hsc
      exact ⟨hl', congrArg some hsc⟩
  · refine ⟨_, ozPrepare_present (fun e => (.zincrby 4 (some v), .inc v (e.aset.map OzAse.t)))
      (.inl ⟨v, rfl⟩), fun hl => ⟨_, rfl, congrArg some ?_⟩⟩
    exact (ozEle_acquired hs r).score_increase (junk r) hw
      (fun a => (ozEle_closed hs r).inc_eq_zero) hl v
  · refine ⟨_, ozPrepare_present (fun e => (.zrem 3, .rem (e.aset.map OzAse.t))) (.inr rfl),
      fun hl => ?_⟩
    have hnil := ozApply_rem_all (junk r) hw (s.st r).zset
    show (!(ozApply (junk r) _ _ _).1.aset.isEmpty) = false
    rw [hnil]
    rfl

end Oz

/-! ## The three queues -/

/-- **Acknowledged writes**: in every reachable state of the three queues and for every element, an
add is accepted iff the element is absent, an increment or a remove iff it is present; right after,
the element is present with the score of the add, its score is the old one plus the increment, or it
is absent. -/
theorem queue_writes {junk : Sds → Fin n → Lc → ℚ}
    {so : Sys (Fin n) (Sds → OzCell) (Sds × OzMsg)}
    {sr : Sys (Fin n) (Sds → Option (RzCell n)) (Sds × RzMsg n)}
    {sf : Sys (Fin n) (Sds → RwfzCell n) (Sds × RwfzMsg n)}
    (ho : (ozObj n junk).Reach anyOrder so) (hr : (rzObj n).Reach anyOrder sr)
    (hf : (rwfzObj n).Reach anyOrder sf) (k : Sds) (r : Fin n) :
    WritesOk (ozObj n junk) (k, ·) (fun x => (x k).get.lookup) (fun x => some (x k).get.score) r
        (so.st r) ∧
      WritesOk (rzObj n) (k, ·) (fun x => ((x k).getD (rzCellNew r)).e.lookup)
        (fun x => ((x k).getD (rzCellNew r)).e.score) r (sr.st r) ∧
      WritesOk (rwfzObj n) (k, ·) (fun x => ((x k).get r).header.exists)
        (fun x => some ((x k).get r).score) r (sf.st r) := by
  have ho' := (keyedView (fun k => ozEleObj n (junk k)) k).reach_any (fun _ _ _ => trivial) ho
  have hr' := (keyedView (fun _ => rzEleObj n) k).reach_any (fun _ _ _ => trivial) hr
  have hf' := (keyedView (fun _ => rwfzEleObj n) k).reach_any (fun _ _ _ => trivial) hf
  exact ⟨.keyed (fun k => ozEleObj n (junk k)) (so.st r) k (ozEle_writes ho' r),
    .keyed (fun _ => rzEleObj n) (sr.st r) k (rzEle_writes hr' r),
    .keyed (fun _ => rwfzEleObj n) (sf.st r) k (rwfzEle_writes (rwfzEle_shown hf' r))⟩

/-- The hypotheses hold of runs with concurrent adds, buffered operations and stale timestamps. -/
theorem queue_writes_demo :
    let so := (ozObj 2 fun _ _ _ => 0).runOf ozDemo
    let sr := (rzObj 2).runOf rzDemo
    let sf := (rwfzObj 2).runOf rwfzDemo
    (((ozObj 2 fun _ _ _ => 0).prepare 1 (so.st 1) (['a'], .zrem 3)).2.isSome ↔
        (so.st 1 ['a']).get.lookup = true) ∧
      (((rzObj 2).prepare 1 (sr.st 1) (['a'], .zrem 3)).2.isSome ↔
        ((sr.st 1 ['a']).getD (rzCellNew 1)).e.lookup = true) ∧
      (((rwfzObj 2).prepare 1 (sf.st 1) (['a'], .zrem 3)).2.isSome ↔
        ((sf.st 1 ['a']).get 1).header.exists = true) := by
  have h := queue_writes
    (Obj.reach_runOf (P := ozObj 2 fun _ _ _ => 0) (g := fun _ _ => true) (fun _ _ _ => trivial)
      ozDemo (by decide +kernel))
    (Obj.reach_runOf (P := rzObj 2) (g := fun _ _ => true) (fun _ _ _ => trivial) rzDemo
      (by decide +kernel))
    (Obj.reach_runOf (P := rwfzObj 2) (g := fun _ _ => true) (fun _ _ _ => trivial) rwfzDemo
      (by decide +kernel)) ['a'] 1
  exact ⟨h.1.rem_iff, h.2.1.rem_iff, h.2.2.rem_iff⟩

end CrdtRedis
