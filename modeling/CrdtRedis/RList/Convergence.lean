import CrdtRedis.ListOrder
import CrdtRedis.RList.Model

/-!
# Convergence of the Remove-Win list

* `RlTrace.body`, `RlTrace.place`: the records of an element are those of its operations in the
  history, and its place is that of its first insert there.
* `RlLog`: what holds of the inserts of a run: a fresh insert names a new element and an element
  that is before the new one, and a readd comes after the fresh insert (`rl_log`).
* `RlTrace.ofInserts`: so the chain is ordered by the identifiers.
* `rl_membership`: the list is a function of the set of operations applied, and replicas that
  applied the same operations list the same elements in the same order.
* `rl_head_diverges`: with the names of the table's own as elements it is not. A remove of the
  element `head` removes whatever element is first at the replica that applies it.
-/

namespace CrdtRedis

open Broadcast Ht

variable {n : ℕ}

/-! ## Inserts -/

/-- What an insert says about the place of its element. -/
structure InsertData where
  prev : Sds
  content : Sds
  pos : Leid

def RlMsg.ins : RlMsg n → Option InsertData
  | .insert prev _ content _ pos _ => some ⟨prev, content, pos⟩
  | _ => none

/-- A fresh insert is one that gives its element a place. -/
def RlMsg.fresh (m : RlMsg n) : Option InsertData := m.ins.filter fun d => !strEq d.prev readdWord

theorem RlMsg.fresh_some {m : RlMsg n} {d : InsertData} :
    m.fresh = some d ↔ m.ins = some d ∧ strEq d.prev readdWord = false := by
  simp [RlMsg.fresh, Option.filter_eq_some_iff]

/-- The first insert of element `k` in a history. -/
def firstInsert (k : Sds) (hist : List (RlMsg n)) : Option InsertData :=
  hist.findSome? fun m => if m.id = k then m.ins else none

/-- The operations of a history on element `k`. -/
def rlOn (k : Sds) (hist : List (RlMsg n)) : List (RwMsg n InsertArgs RlUpd) :=
  hist.filterMap fun m => if m.id = k then some m.toRw else none

theorem firstInsert_snoc_self {k : Sds} (hist : List (RlMsg n)) {m : RlMsg n} {d : InsertData}
    (hk : m.id = k) (h : m.ins = some d) :
    firstInsert k (hist ++ [m]) = some ((firstInsert k hist).getD d) := by
  have : firstInsert k (hist ++ [m]) = (firstInsert k hist).or (some d) := by
    simp [firstInsert, List.findSome?_append, hk, h]
  rw [this]
  cases firstInsert k hist <;> rfl

theorem firstInsert_snoc_of_ne {k : Sds} {hist : List (RlMsg n)} {m : RlMsg n}
    (h : m.id ≠ k ∨ m.ins = none) : firstInsert k (hist ++ [m]) = firstInsert k hist := by
  have : (if m.id = k then m.ins else none) = none := by
    rcases h with h | h <;> simp [h]
  simp [firstInsert, List.findSome?_append, this]

/-- An element with the place that `d` gives it, or without one. -/
structure HasPlace (x : Node (RwSets n (RlAse n))) (k : Sds) (d : Option InsertData) : Prop where
  oid : x.oid = d.map fun _ => k
  content : x.content = d.map InsertData.content
  posId : x.posId = d.map InsertData.pos

theorem Ht.Kept.hasPlace {ht ht' : RlHt n} {k : Sds} {d : Option InsertData} (h : Kept ht ht')
    (hp : HasPlace (ht.node k) k d) : HasPlace (ht'.node k) k d :=
  ⟨(h.oid k).trans hp.oid, (h.content k).trans hp.content, (h.posId k).trans hp.posId⟩

theorem mem_rlOn {k : Sds} {hist : List (RlMsg n)} {x : RwMsg n InsertArgs RlUpd} :
    x ∈ rlOn k hist ↔ ∃ m ∈ hist, m.id = k ∧ m.toRw = x := by
  simp [rlOn]

/-! ## What a history leads to -/

namespace RlTrace

variable {r : Fin n} {ht : RlHt n} {hist : List (RlMsg n)}

/-- The records of an element are those of its operations. -/
theorem body (h : RlTrace r ht hist) (k : Sds) :
    (ht.node k).body = rwFold (rlKind n) (rlOn k hist) := by
  induction h with
  | init => rfl
  | same _ _ hs _ ih => rw [hs.node, ih]
  | @exec ht ht' hist m _ hs ih =>
    rw [hs.body]
    by_cases hk : k = m.id
    · subst hk
      simp [rlOn, rwFold, ih]
    · simp [rlOn, hk, Ne.symm hk, ih]

/-- The place of an element is that of its first insert. -/
theorem place (h : RlTrace r ht hist) (k : Sds) : HasPlace (ht.node k) k (firstInsert k hist) := by
  induction h with
  | init => exact ⟨rfl, rfl, rfl⟩
  | same _ _ hs _ ih => rw [hs.node]; exact ih
  | @exec ht ht' hist m _ hs ih =>
    cases m with
    | insert prev id content args pos t =>
      by_cases hk : id = k
      · subst hk
        have hfirst := firstInsert_snoc_self (k := id) hist
          (m := .insert prev id content args pos t) rfl rfl
        cases hd : firstInsert id hist with
        | some d =>
          rw [hd] at ih hfirst
          exact hfirst ▸ (hs.place.1 (by simp [ih.oid])).hasPlace ih
        | none =>
          rw [hd] at ih hfirst
          obtain ⟨ho, hp, hc, -⟩ := hs.place.2 (by simp [ih.oid])
          refine hfirst ▸ ⟨?_, ?_, ?_⟩
          · simpa using congrFun ho id
          · simpa using congrFun hc id
          · simpa using congrFun hp id
      · rw [firstInsert_snoc_of_ne (m := .insert prev id content args pos t) (.inl hk)]
        cases hoid : (ht.node id).oid with
        | some o => exact (hs.place.1 (by simp [hoid])).hasPlace ih
        | none =>
          obtain ⟨ho, hp, hc, -⟩ := hs.place.2 hoid
          refine ⟨?_, ?_, ?_⟩
          · simpa [Ne.symm hk, ih.oid] using congrFun ho k
          · simpa [Ne.symm hk, ih.content] using congrFun hc k
          · simpa [Ne.symm hk, ih.posId] using congrFun hp k
    | update id type value t =>
      rw [firstInsert_snoc_of_ne (.inr rfl)]
      exact Kept.hasPlace hs.place ih
    | rem id t =>
      rw [firstInsert_snoc_of_ne (.inr rfl)]
      exact Kept.hasPlace hs.place ih

end RlTrace

/-! ## The inserts of a run -/

/-- What holds of a message that has been sent. -/
structure RlGood (sent : RlMsg n → Prop) (m : RlMsg n) : Prop where
  /-- A fresh insert has another name than `null`. -/
  null : ∀ d, m.fresh = some d → strEq m.id nullWord = false
  /-- Its identifier was made with the clock of its origin. -/
  leid : ∀ d, m.fresh = some d → ∃ left right rand, ∃ c : Clock n,
    d.pos = constructLeid left right c rand ∧ c.id = m.t.id ∧
      ∑ q, m.t.vector q = ∑ q, c.vector q + 1
  /-- It names no element, or one with a smaller identifier. -/
  prev : ∀ d, m.fresh = some d → strEq d.prev nullWord = true ∨
    ∃ f e, sent f ∧ f.fresh = some e ∧ f.id = d.prev ∧ e.pos.key < d.pos.key
  /-- A readd comes after the fresh insert of its element. -/
  readd : ∀ d, m.ins = some d → m.fresh = none →
    ∃ f e, sent f ∧ f.fresh = some e ∧ f.id = m.id ∧ f.t.vector < m.t.vector

theorem RlGood.mono {sent sent' : RlMsg n → Prop} {m : RlMsg n} (h : RlGood sent m)
    (hs : ∀ x, sent x → sent' x) : RlGood sent' m where
  null := h.null
  leid := h.leid
  prev d hd := (h.prev d hd).imp_right fun ⟨f, e, hf, h'⟩ => ⟨f, e, hs f hf, h'⟩
  readd d hd hn := by
    obtain ⟨f, e, hf, h'⟩ := h.readd d hd hn
    exact ⟨f, e, hs f hf, h'⟩

/-- What holds of the messages that have been sent. -/
structure RlLog (sent : RlMsg n → Prop) : Prop where
  good : ∀ m, sent m → RlGood sent m
  once : ∀ m m' d d', sent m → sent m' → m.fresh = some d → m'.fresh = some d' → m.id = m'.id →
    m = m'

/-- A history of messages that have been sent, each after those that were sent before it. -/
structure RlHist (sent : RlMsg n → Prop) (hist : List (RlMsg n)) : Prop where
  mem : ∀ m ∈ hist, sent m
  order : ∀ l₁ m l₂, hist = l₁ ++ m :: l₂ → ∀ m', sent m' → m'.t.vector < m.t.vector → m' ∈ l₁

section Sent

variable {sent : RlMsg n → Prop} {hist : List (RlMsg n)} {m : RlMsg n} {ht ht' : RlHt n} {r : Fin n}

theorem RlHist.init (h : RlHist sent (hist ++ [m])) : RlHist sent hist :=
  ⟨fun x hx => h.mem x (List.mem_append_left _ hx), fun l₁ x l₂ heq =>
    h.order l₁ x (l₂ ++ [m]) (by rw [heq]; simp)⟩

/-- The first insert of an element in a history is fresh. -/
theorem RlLog.first (hL : ∀ m, sent m → RlGood sent m) (hH : RlHist sent hist) {k : Sds}
    {d : InsertData} (h : firstInsert k hist = some d) :
    ∃ m ∈ hist, m.id = k ∧ m.fresh = some d := by
  obtain ⟨l₁, m, l₂, heq, hm, hnone⟩ := List.findSome?_eq_some_iff.mp h
  obtain ⟨hk, hins⟩ := Option.ite_none_right_eq_some.mp hm
  have hmem : m ∈ hist := by simp [heq]
  refine ⟨m, hmem, hk, ?_⟩
  cases hf : m.fresh with
  | some d' =>
    have := (RlMsg.fresh_some.mp hf).1
    rw [hins] at this
    exact this.symm
  | none =>
    -- A readd would come after the fresh insert.
    obtain ⟨f, e, hs, hfe, hid, hlt⟩ := (hL m (hH.mem m hmem)).readd d hins hf
    have := hnone f (hH.order l₁ m l₂ heq f hs hlt)
    simp [hid, hk, (RlMsg.fresh_some.mp hfe).1] at this

/-- An element with a place has a fresh insert in the history. -/
theorem RlTrace.fresh (htr : RlTrace r ht hist) (hL : ∀ m, sent m → RlGood sent m)
    (hH : RlHist sent hist) {k : Sds} {x : Leid} (hx : (ht.node k).posId = some x) :
    ∃ f e, f ∈ hist ∧ f.fresh = some e ∧ f.id = k ∧ e.pos = x := by
  rw [(htr.place k).posId, Option.map_eq_some_iff] at hx
  obtain ⟨d, hd, rfl⟩ := hx
  obtain ⟨f, hf, hid, hfd⟩ := RlLog.first hL hH hd
  exact ⟨f, d, hf, hfd, hid, rfl⟩

/-- What holds of a message that a command sends. -/
theorem RlSent.good {o : LCmd} (h : RlSent ht ht' o m) (htr : RlTrace r ht hist)
    (hL : ∀ m, sent m → RlGood sent m) (hH : RlHist sent hist)
    (hcur : ∀ m ∈ hist, m.t.vector ≤ ht.clock.vector)
    (hnull : ∀ d, m.fresh = some d → strEq m.id nullWord = false) : RlGood sent m := by
  cases h with
  | @insert argc prev prev' id content _ _ _ _ rand args pos hargs hprev hpos =>
    have hfresh : ∀ d, (RlMsg.insert prev' id content args pos (vcNow ht.clock)).fresh = some d →
        d = ⟨prev', content, pos⟩ ∧ strEq prev' readdWord = false := by
      intro d hd
      obtain ⟨hd, hr⟩ := RlMsg.fresh_some.mp hd
      cases hd
      exact ⟨rfl, hr⟩
    refine ⟨hnull, fun d hd => ?_, fun d hd => ?_, fun d hd hn => ?_⟩
    · obtain ⟨rfl, hr⟩ := hfresh d hd
      obtain ⟨-, -, -, hp⟩ := hpos.sent.resolve_right fun h => by simp [hr] at h
      exact ⟨_, _, rand, ht.clock, hp, rfl, sum_vcNow _⟩
    · obtain ⟨rfl, hr⟩ := hfresh d hd
      obtain ⟨-, -, -, hp⟩ := hpos.sent.resolve_right fun h => by simp [hr] at h
      rcases hprev with ⟨rfl, hsome, -⟩ | ⟨-, -, hw⟩
      · obtain ⟨x, hx⟩ := Option.isSome_iff_exists.mp hsome
        obtain ⟨f, e, hf, hfe, hid, rfl⟩ := htr.fresh hL hH hx
        refine .inr ⟨f, e, hH.mem f hf, hfe, hid, ?_⟩
        rw [hp, hx]
        exact lt_constructLeid
      · exact .inl (hw.resolve_right (by simp [hr]))
    · have hr : strEq prev' readdWord = true := by
        by_contra hr
        have hf : RlMsg.fresh (.insert prev' id content args pos (vcNow ht.clock)) =
          some ⟨prev', content, pos⟩ := RlMsg.fresh_some.mpr ⟨rfl, by simpa using hr⟩
        rw [hn] at hf
        cases hf
      obtain ⟨hx, -⟩ := hpos.sent.resolve_left fun h => by simp [hr] at h
      obtain ⟨f, e, hf, hfe, hid, -⟩ := htr.fresh hL hH hx
      exact ⟨f, e, hH.mem f hf, hfe, hid, (hcur f hf).trans_lt (lt_vcNow _)⟩
  | update _ => exact ⟨hnull, nofun, nofun, nofun⟩
  | rem _ => exact ⟨hnull, nofun, nofun, nofun⟩

/-- The inserts that give an element its place. -/
def rlIns (sent : RlMsg n → Prop) (i : Ins) : Prop :=
  ∃ m d, sent m ∧ m.fresh = some d ∧ i = ⟨d.prev, m.id, d.pos⟩

/-- What holds of the fresh inserts, if their identifiers are different. -/
theorem RlLog.insLog (hL : RlLog sent)
    (hpos : ∀ m m' d d', sent m → sent m' → m.fresh = some d → m'.fresh = some d' →
      d.pos = d'.pos → m = m')
    (hwf : ∀ m d, sent m → m.fresh = some d → d.pos.Wf) : InsLog (rlIns sent) := by
  refine ⟨?_, ?_, ?_, ?_, ?_⟩
  · rintro _ _ ⟨m, d, hm, hd, rfl⟩ ⟨m', d', hm', hd', rfl⟩ hid
    obtain rfl := hL.once m m' d d' hm hm' hd hd' hid
    rw [Option.some.inj (hd.symm.trans hd')]
  · rintro _ _ ⟨m, d, hm, hd, rfl⟩ ⟨m', d', hm', hd', rfl⟩ hp
    rw [hpos m m' d d' hm hm' hd hd' hp]
  · rintro _ _ ⟨m, d, hm, hd, rfl⟩ ⟨m', d', hm', hd', rfl⟩ (hid : m.id = d'.prev)
    rcases (hL.good m' hm').prev d' hd' with hnull | ⟨f, e, hf, hfe, hfid, hlt⟩
    · have := (hL.good m hm).null d hd
      rw [hid, hnull] at this
      cases this
    · obtain rfl := hL.once f m e d hf hm hfe hd (hfid.trans hid.symm)
      rwa [Option.some.inj (hd.symm.trans hfe)]
  · rintro _ ⟨m, d, hm, hd, rfl⟩
    exact (hL.good m hm).null d hd
  · rintro _ ⟨m, d, hm, hd, rfl⟩
    exact hwf m d hm hd

/-- **A history makes a list of its fresh inserts**, ordered by the identifiers. -/
theorem RlTrace.ofInserts (h : RlTrace r ht hist) (hL : ∀ m, sent m → RlGood sent m)
    (hI : InsLog (rlIns sent)) (hH : RlHist sent hist) : OfInserts (rlIns sent) ht := by
  induction h with
  | init => exact .new
  | same _ _ hs _ ih => exact (ih hH).kept hs.kept
  | @exec ht ht' hist m htr hs ih =>
    have ih := ih hH.init
    cases m with
    | insert prev id content args pos t =>
      cases hoid : (ht.node id).oid with
      | some o => exact ih.kept (hs.place.1 (by simp [hoid]))
      | none =>
        have hid : (ht.node id).posId = none := by
          simpa [hoid] using (htr.sound.oid id).symm
        have hnone : firstInsert id hist = none := by
          simpa [hoid] using (htr.place id).oid.symm
        -- The insert is the first one of its element, so it is fresh.
        obtain ⟨m, hm, hmid, hmf⟩ := RlLog.first hL hH (k := id)
          (firstInsert_snoc_self hist (m := .insert prev id content args pos t) rfl rfl)
        rw [hnone, Option.getD_none] at hmf
        exact ih.added (i := ⟨prev, id, pos⟩) hI ⟨m, _, hH.mem m hm, hmf, by rw [hmid]⟩ hid
          (hs.place.2 hoid)
    | update id type value t => exact ih.kept hs.place
    | rem id t => exact ih.kept hs.place

end Sent

/-! ## Runs -/

section Runs

variable {s : Sys (Fin n) (Option (RlSt n)) (RlMsg n)}

/-- Runs in which a fresh insert names an element that no replica knows a fresh insert of. -/
def rlUnique (s : Sys (Fin n) (Option (RlSt n)) (RlMsg n)) : Ev (Fin n) LCmd → Prop
  | .op r o _ => ∀ m, ((rlObj n).prepare r (s.st r) o).2 = some m → m.fresh.isSome →
    ∀ q m', received s q m' → m'.fresh.isSome → m'.id ≠ m.id
  | .recv _ _ => True

/-- Runs in which no fresh insert names `null`. -/
def rlNotNull (s : Sys (Fin n) (Option (RlSt n)) (RlMsg n)) : Ev (Fin n) LCmd → Prop
  | .op r o _ => ∀ m, ((rlObj n).prepare r (s.st r) o).2 = some m → m.fresh.isSome →
    strEq m.id nullWord = false
  | .recv _ _ => True

/-- Runs whose fresh inserts name new elements and find room for their identifiers, where no name is
one of the table's own or `null`, and every order of reception. -/
def rlListGuard (s : Sys (Fin n) (Option (RlSt n)) (RlMsg n)) (e : Ev (Fin n) LCmd) : Prop :=
  rlGuard s e ∧ rlUnique s e ∧ rlNotNull s e

theorem rlGuard_of_list (hs : (rlObj n).Reach rlListGuard s) : (rlObj n).Reach rlGuard s :=
  hs.mono fun _ _ h => h.1

/-- The history of a replica. -/
theorem rl_hist (hs : (rlObj n).Reach rlGuard s) {r : Fin n} {x : RlSt n}
    (hx : s.st r = some x) : RlHist (broadcasts s) x.hist ∧
      ∀ m ∈ x.hist, received s r m ∧ m.t.vector ≤ x.ht.clock.vector := by
  obtain ⟨-, hl, hd⟩ := rl_local hs hx
  have hrecv : ∀ m ∈ x.hist, received s r m := fun m hm => (hd.split m).mp (.inl hm)
  refine ⟨⟨fun m hm => ?_, hd.order⟩, fun m hm => ⟨hrecv m hm, hl.le m hm⟩⟩
  obtain ⟨i, -, o, hi⟩ := hrecv m hm
  exact ⟨i, o, hi⟩

/-- What holds of the inserts of a run. -/
theorem rl_log (hs : (rlObj n).Reach rlListGuard s) : RlLog (broadcasts s) := by
  refine hs.log_rule (I := fun (log : ℕ → Option (Fin n × RlMsg n)) =>
    RlLog fun m => ∃ i o, log i = some (o, m)) ⟨by simp, by simp⟩ ?_
  intro s r o i s₁ m hs ih hg hp hl
  have hsent : ∀ x, (∃ j o', (Obj.issue (rlObj n) s r i s₁ m).log j = some (o', x)) ↔
      broadcasts s x ∨ x = m := broadcasts_issue hl
  obtain ⟨x, ht', hx, -, htr, -, -, -, -, h⟩ :=
    rlObj_prepare_cases ((rl_causal (rlGuard_of_list hs)).2 r) hg.1.1 hp
  obtain ⟨m', hm', hsm⟩ := h.resolve_left (by simp)
  obtain rfl := Option.some.inj hm'
  obtain ⟨hH, hcur⟩ := rl_hist (rlGuard_of_list hs) hx
  have hgood : RlGood (broadcasts s) m := hsm.good htr ih.good hH (fun y hy => (hcur y hy).2)
    fun d hd => hg.2.2 m (by rw [hp]) (by simp [hd])
  -- No fresh insert has named the element of a new one.
  have hnew : ∀ x d d', broadcasts s x → x.fresh = some d → m.fresh = some d' → x.id ≠ m.id := by
    rintro x d d' ⟨j, o', hj⟩ hd hd'
    exact hg.2.1 m (by rw [hp]) (by simp [hd']) o' x ⟨j, hs.wf.own j o' x hj, o', hj⟩ (by simp [hd])
  refine ⟨fun x hx => ?_, fun x y d d' hx hy hd hd' hid => ?_⟩
  · have hx' : RlGood (broadcasts s) x := by
      rcases (hsent x).mp hx with hx | rfl
      · exact ih.good x hx
      · exact hgood
    exact hx'.mono fun y hy => (hsent y).mpr (.inl hy)
  · rcases (hsent x).mp hx with hold | rfl <;> rcases (hsent y).mp hy with hold' | rfl
    · exact ih.once x y d d' hold hold' hd hd' hid
    · exact absurd hid (hnew x d d' hold hd hd')
    · exact absurd hid.symm (hnew y d' d hold' hd' hd)
    · rfl

/-- Fresh inserts have different identifiers. -/
theorem rl_pos (hs : (rlObj n).Reach rlListGuard s) (m m' : RlMsg n) (d d' : InsertData)
    (hm : broadcasts s m) (hm' : broadcasts s m') (hd : m.fresh = some d) (hd' : m'.fresh = some d')
    (hpos : d.pos = d'.pos) : m = m' := by
  have hL := rl_log hs
  obtain ⟨hc, -⟩ := rl_causal (rlGuard_of_list hs)
  obtain ⟨l, r, k, c, hp, hid, hsum⟩ := (hL.good m hm).leid d hd
  obtain ⟨l', r', k', c', hp', hid', hsum'⟩ := (hL.good m' hm').leid d' hd'
  obtain ⟨hcid, hcsum⟩ := constructLeid_inj (hp.symm.trans (hpos.trans hp'))
  have hmid : m.t.id = m'.t.id := hid.symm.trans (hcid.trans hid')
  -- Messages of one origin are ordered, and those with one sum are equal.
  have heq : ∀ x y : RlMsg n, broadcasts s x → broadcasts s y → x.t.id = y.t.id →
      ∑ q, x.t.vector q = ∑ q, y.t.vector q → x.t.vector x.t.id ≤ y.t.vector x.t.id → x = y := by
    rintro x y ⟨i, o, hi⟩ ⟨j, o', hj⟩ hxy hs hle
    have hvle : x.t.vector ≤ y.t.vector := hc.le_of_count ⟨i, o, hi⟩ ⟨j, o', hj⟩ hle
    have hv : ∀ q, x.t.vector q = y.t.vector q := fun q =>
      (Finset.sum_eq_sum_iff_of_le fun q _ => hvle q).mp hs q (Finset.mem_univ q)
    have ho : x.t.id = o := hc.origin i o x hi
    have ho' : y.t.id = o' := hc.origin j o' y hj
    have hoo : o' = o := ho'.symm.trans (hxy.symm.trans ho)
    subst hoo
    obtain rfl := hc.uniq i j o' x y hi hj (hv o')
    rw [hi] at hj
    cases hj
    rfl
  rcases le_total (m.t.vector m.t.id) (m'.t.vector m.t.id) with hle | hle
  · exact heq m m' hm hm' hmid (by omega) hle
  · exact (heq m' m hm' hm hmid.symm (by omega) (hmid ▸ hle)).symm

/-- The identifier of a fresh insert is well formed: those of the list that it was made from are. -/
theorem rl_wf (hs : (rlObj n).Reach rlListGuard s) (m : RlMsg n) (d : InsertData)
    (hm : broadcasts s m) (hd : m.fresh = some d) : d.pos.Wf := by
  have h := hs.log_rule (I := fun (log : ℕ → Option (Fin n × RlMsg n)) =>
    ∀ i o m d, log i = some (o, m) → m.fresh = some d → d.pos.Wf) (by simp) ?_
  · obtain ⟨i, o, hi⟩ := hm
    exact h i o m d hi hd
  · intro s r o i s₁ m hs ih hg hp hl j o' m' d hj hd
    rcases Obj.issue_log_cases hj with ⟨rfl, hnew⟩ | ⟨-, hj⟩
    · obtain ⟨rfl, rfl⟩ := Prod.mk.inj hnew
      have hs' := rlGuard_of_list hs
      obtain ⟨x, ht', hx, -, htr, -, -, -, -, h⟩ :=
        rlObj_prepare_cases ((rl_causal hs').2 o') hg.1.1 hp
      obtain ⟨m₁, hm₁, hsm⟩ := h.resolve_left (by simp)
      obtain rfl := Option.some.inj hm₁
      obtain ⟨hins, hr⟩ := RlMsg.fresh_some.mp hd
      cases hsm with
      | @insert argc prev prev' id content _ _ _ _ rand args pos hargs hprev hpos =>
        cases hins
        obtain ⟨-, -, -, rfl⟩ := hpos.sent.resolve_right fun h => by simp [hr] at h
        refine constructLeid_wf fun y hy => ?_
        have hH := (rl_hist hs' hx).1
        obtain ⟨f, e, hf, hfe, -, rfl⟩ := htr.fresh (rl_log hs).good hH hy
        obtain ⟨j, o, hj⟩ := hH.mem f hf
        exact ih j o f e hj hfe
      | update _ => cases hins
      | rem _ => cases hins
    · exact ih j o' m' d hj hd

theorem rl_insLog (hs : (rlObj n).Reach rlListGuard s) : InsLog (rlIns (broadcasts s)) :=
  (rl_log hs).insLog (rl_pos hs) (rl_wf hs)

/-- The list of every replica is made by the fresh inserts of the run. -/
theorem rl_ofInserts (hs : (rlObj n).Reach rlListGuard s) {r : Fin n} {x : RlSt n}
    (hx : s.st r = some x) : OfInserts (rlIns (broadcasts s)) x.ht :=
  (rl_local (rlGuard_of_list hs) hx).1.ofInserts (rl_log hs).good (rl_insLog hs)
    (rl_hist (rlGuard_of_list hs) hx).1

/-- The operations on an element are in causal order. -/
theorem rl_causalHist (hs : (rlObj n).Reach rlGuard s) {r : Fin n} {x : RlSt n}
    (hx : s.st r = some x) (k : Sds) : CausalHist (rlOn k x.hist) := by
  obtain ⟨hc, -⟩ := rl_causal hs
  obtain ⟨-, hl, -⟩ := rl_local hs hx
  have hH := (rl_hist hs hx).1
  refine ⟨hl.order.filterMap _ fun m m' h y hy y' hy' => ?_, fun y hy y' hy' hle => ?_⟩
  · obtain ⟨-, hy⟩ := Option.ite_none_right_eq_some.mp hy
    obtain ⟨-, hy'⟩ := Option.ite_none_right_eq_some.mp hy'
    cases hy
    cases hy'
    rw [RlMsg.toRw_t, RlMsg.toRw_t]
    exact h
  · obtain ⟨m, hm, -, rfl⟩ := mem_rlOn.mp hy
    obtain ⟨m', hm', -, rfl⟩ := mem_rlOn.mp hy'
    simp only [RlMsg.toRw_t] at hle ⊢
    exact hc.le_of_count (hH.mem m hm) (hH.mem m' hm') hle

end Runs

/-! ## The closed form -/

/-- The operations that were applied. -/
def RlSt.applied (x : RlSt n) : Finset (RlMsg n) := x.hist.toFinset

/-- The elements of a list as a function of the set `S` of operations applied. -/
structure RlClosed (S : Finset (RlMsg n)) (ht : RlHt n) : Prop where
  aset : ∀ k t, (∃ a ∈ (ht.node k).body.aset, a.t = t) ↔
    ∃ m ∈ S, m.id = k ∧ m.ins.isSome ∧ m.t = t ∧
      ∀ m' ∈ S, m'.id = k → m'.toRw.isUpd = false → ¬ t.vector < m'.t.vector
  rset : ∀ k t, t ∈ (ht.node k).body.rset ↔
    .rem k t ∈ S ∧ ∀ m ∈ S, m.id = k → m.ins.isSome → ¬ t.vector < m.t.vector
  once : ∀ k, ((ht.node k).body.aset.map RlAse.t).Nodup ∧ (ht.node k).body.rset.Nodup
  fresh : ∀ m ∈ S, ∀ d, m.fresh = some d → HasPlace (ht.node m.id) m.id (some d)
  absent : ∀ k, (∀ m ∈ S, m.id = k → m.fresh = none) → HasPlace (ht.node k) k none

/-- The attributes that an element shows; `none` if `value` is NULL. -/
def RwSets.shown (s : RwSets n (RlAse n)) : Option Attrs :=
  s.value.bind fun v => (s.aset.find? (·.t = v)).map RlAse.attrs

/-- An entry of the reply of `rllist`. -/
structure RlEntry where
  oid : Sds
  content : Sds
  attrs : Attrs

def rlEntry (x : Node (RwSets n (RlAse n))) : Option RlEntry :=
  x.oid.bind fun oid => x.content.bind fun content => x.body.shown.map fun attrs =>
    ⟨oid, content, attrs⟩

/-- `rllistCommand`: the array length that is announced, and the entries. -/
def rllist (ht : RlHt n) : Option (ℤ × List RlEntry) := ht.listing RwSets.lookup rlEntry

theorem toRw_add {m : RlMsg n} {t : Clock n} :
    (∃ g, m.toRw = .add g t) ↔ m.ins.isSome ∧ m.t = t := by
  cases m <;> simp [RlMsg.toRw, RlMsg.ins, RlMsg.t]

theorem toRw_rem {m : RlMsg n} {k : Sds} {t : Clock n} :
    m.id = k ∧ m.toRw = .rem t ↔ m = .rem k t := by
  cases m <;> simp [RlMsg.toRw, RlMsg.id]

section Closed

variable {s : Sys (Fin n) (Option (RlSt n)) (RlMsg n)} {r q : Fin n} {x y : RlSt n}

theorem rl_rwClosed (hs : (rlObj n).Reach rlGuard s) (hx : s.st r = some x) (k : Sds) :
    RwClosed (rlKind n) (rlOn k x.hist) (x.ht.node k).body := by
  rw [(rl_local hs hx).1.body k]
  exact rwFold_closed (rl_causalHist hs hx k)

theorem survives_rlOn {k : Sds} {t : Clock n} : Survives (rlOn k x.hist) t ↔
    ∀ m ∈ x.applied, m.id = k → m.toRw.isUpd = false → ¬ t.vector < m.t.vector := by
  simp only [Survives, mem_rlOn, RlSt.applied, List.mem_toFinset]
  constructor
  · intro h m hm hk hu
    simpa using h m.toRw ⟨m, hm, hk, rfl⟩ hu
  · rintro h _ ⟨m, hm, hk, rfl⟩ hu
    simpa using h m hm hk hu

theorem rl_closed (hs : (rlObj n).Reach rlListGuard s) (hx : s.st r = some x) :
    RlClosed x.applied x.ht := by
  have hL := rl_log hs
  have hs := rlGuard_of_list hs
  have hH := (rl_hist hs hx).1
  obtain ⟨htr, -⟩ := rl_local hs hx
  refine ⟨fun k t => ?_, fun k t => ?_, fun k => (rl_rwClosed hs hx k).once, fun m hm d hd => ?_,
    fun k hk => ?_⟩
  · have hc := rl_rwClosed hs hx k
    constructor
    · rintro ⟨a, ha, rfl⟩
      obtain ⟨g, t, hg, hsv, rfl⟩ := (hc.aset a).mp ha
      obtain ⟨m, hm, hk, he⟩ := mem_rlOn.mp hg
      obtain ⟨hi, ht⟩ := toRw_add.mp ⟨g, he⟩
      have hst : (rwEntry (rlKind n) (rlOn k x.hist) g t).t = t :=
        stamp_rwEntry (K := rlKind n) g t
      rw [hst]
      exact ⟨m, List.mem_toFinset.mpr hm, hk, hi, ht, survives_rlOn.mp hsv⟩
    · rintro ⟨m, hm, hk, hi, ht, hsv⟩
      obtain ⟨g, he⟩ := toRw_add.mpr ⟨hi, ht⟩
      refine ⟨_, (hc.aset _).mpr ⟨g, t, ?_, survives_rlOn.mpr hsv, rfl⟩,
        stamp_rwEntry (K := rlKind n) g t⟩
      exact mem_rlOn.mpr ⟨m, List.mem_toFinset.mp hm, hk, he⟩
  · have hc := rl_rwClosed hs hx k
    rw [hc.rset]
    refine and_congr ?_ ?_
    · simp [mem_rlOn, toRw_rem, RlSt.applied]
    · constructor
      · intro h m hm hk hi
        obtain ⟨g, he⟩ := toRw_add.mpr ⟨hi, rfl⟩
        exact h g m.t (mem_rlOn.mpr ⟨m, List.mem_toFinset.mp hm, hk, he⟩)
      · intro h g t' hg
        obtain ⟨m, hm, hk, he⟩ := mem_rlOn.mp hg
        obtain ⟨hi, rfl⟩ := toRw_add.mp ⟨g, he⟩
        exact h m (List.mem_toFinset.mpr hm) hk hi
  · -- The first insert of the element is fresh, and there is only one.
    have hm := List.mem_toFinset.mp hm
    have hsome : (firstInsert m.id x.hist).isSome := by
      simp only [firstInsert, List.findSome?_isSome_iff]
      exact ⟨m, hm, by simp [(RlMsg.fresh_some.mp hd).1]⟩
    obtain ⟨e, he⟩ := Option.isSome_iff_exists.mp hsome
    obtain ⟨f, hf, hid, hfe⟩ := RlLog.first hL.good hH he
    obtain rfl := hL.once f m e d (hH.mem f hf) (hH.mem m hm) hfe hd hid
    rw [hd] at hfe
    cases hfe
    exact he ▸ htr.place f.id
  · have hnone : firstInsert k x.hist = none := by
      by_contra hne
      obtain ⟨d, hd⟩ := Option.ne_none_iff_exists'.mp hne
      obtain ⟨f, hf, hid, hfd⟩ := RlLog.first hL.good hH hd
      rw [hk f (List.mem_toFinset.mpr hf) hid] at hfd
      cases hfd
    exact hnone ▸ htr.place k

/-- The place of an element is a function of the operations applied. -/
theorem RlClosed.place {S : Finset (RlMsg n)} {ht ht' : RlHt n} (h : RlClosed S ht)
    (h' : RlClosed S ht') (k : Sds) :
    ∃ d, HasPlace (ht.node k) k d ∧ HasPlace (ht'.node k) k d := by
  by_cases hk : ∃ m ∈ S, m.id = k ∧ ∃ d, m.fresh = some d
  · obtain ⟨m, hm, rfl, d, hd⟩ := hk
    exact ⟨some d, h.fresh m hm d hd, h'.fresh m hm d hd⟩
  · have hnone : ∀ m ∈ S, m.id = k → m.fresh = none := fun m hm hid => by
      by_contra hne
      exact hk ⟨m, hm, hid, Option.ne_none_iff_exists'.mp hne⟩
    exact ⟨none, h.absent k hnone, h'.absent k hnone⟩

/-- An element shows the attributes of the entry that `value` points to. -/
theorem RwClosed.shown_eq {H : List (RwMsg n InsertArgs RlUpd)} {z : RwSets n (RlAse n)}
    (h : RwClosed (rlKind n) H z) {c : Clock n} (hc : z.value = some c) :
    ∃ g, .add g c ∈ H ∧ z.shown = some (rwEntry (rlKind n) H g c).attrs := by
  obtain ⟨a, ha, hac⟩ := h.value.mem c hc
  obtain ⟨b, hb⟩ := Option.isSome_iff_exists.mp
    (List.find?_isSome (p := fun a : RlAse n => a.t = c).mpr ⟨a, ha, decide_eq_true hac⟩)
  have hbc : b.t = c := by simpa using List.find?_some hb
  obtain ⟨g, t, hg, -, rfl⟩ := (h.aset b).mp (List.mem_of_find?_eq_some hb)
  obtain rfl : t = c := (stamp_rwEntry (K := rlKind n) g t).symm.trans hbc
  exact ⟨g, hg, by simp [RwSets.shown, hc, hb]⟩

/-- An element that is in the list shows attributes. -/
theorem RwClosed.shown {H : List (RwMsg n InsertArgs RlUpd)} {z : RwSets n (RlAse n)}
    (h : RwClosed (rlKind n) H z) (hl : z.lookup = true) : ∃ a, z.shown = some a := by
  have hne : z.aset ≠ [] := by
    intro h0
    simp [RwSets.lookup, h0] at hl
  obtain ⟨c, hc⟩ := Option.ne_none_iff_exists'.mp (mt h.value.none.mp hne)
  obtain ⟨g, -, hs⟩ := h.shown_eq hc
  exact ⟨_, hs⟩

/-- What `rllist` replies. -/
theorem rl_list (hs : (rlObj n).Reach rlGuard s) (hx : s.st r = some x) {l : List Sds}
    (hl : Ordered x.ht l) : ∃ es, rllist x.ht = some (x.ht.lenD, es) ∧
      es.map (fun e => (e.oid, e.content)) =
        (l.filter fun k => (x.ht.node k).body.lookup).map fun k =>
          ((x.ht.node k).oid.getD [], (x.ht.node k).content.getD []) := by
  obtain ⟨htr, -⟩ := rl_local hs hx
  refine listing_eq _ _ htr.typed htr.sound hl.listed fun k hk hlook => ?_
  have hpos := (hl.listed.mem k).mp hk
  obtain ⟨o, ho⟩ := Option.isSome_iff_exists.mp ((htr.sound.oid k).trans hpos)
  obtain ⟨c, hc⟩ := Option.isSome_iff_exists.mp ((htr.sound.content k).trans hpos)
  obtain ⟨a, ha⟩ := (rl_rwClosed hs hx k).shown hlook
  exact ⟨⟨o, c, a⟩, by simp [rlEntry, ho, hc, ha], by simp [ho, hc]⟩

theorem mem_rlOn_congr (hS : x.applied = y.applied) (k : Sds) (m : RwMsg n InsertArgs RlUpd) :
    m ∈ rlOn k x.hist ↔ m ∈ rlOn k y.hist := by
  have hmem : ∀ m, m ∈ x.hist ↔ m ∈ y.hist := fun m => by
    simpa [RlSt.applied] using Finset.ext_iff.mp hS m
  simp only [mem_rlOn, hmem]

/-- **Convergence of membership and order**: in every such run, the records and the place of every
element are a function of the set of operations that the replica applied, all of which it received;
replicas that applied the same operations list the same elements with the same contents in the same
order. -/
theorem rl_membership (hs : (rlObj n).Reach rlListGuard s) :
    (∀ r, ∃ x, s.st r = some x ∧ RlClosed x.applied x.ht ∧ ∀ m ∈ x.applied, received s r m) ∧
    ∀ r q x y, s.st r = some x → s.st q = some y → x.applied = y.applied →
      ∃ len len' es es', rllist x.ht = some (len, es) ∧ rllist y.ht = some (len', es') ∧
        es.map (fun e => (e.oid, e.content)) = es'.map fun e => (e.oid, e.content) := by
  have hg := rlGuard_of_list hs
  refine ⟨fun r => ?_, fun r q x y hx hy hS => ?_⟩
  · obtain ⟨x, hx, -⟩ := (rl_causal hg).2 r
    exact ⟨x, hx, rl_closed hs hx, fun m hm =>
      ((rl_hist hg hx).2 m (List.mem_toFinset.mp hm)).1⟩
  · have hplace := (rl_closed hs hx).place (hS ▸ rl_closed hs hy)
    obtain ⟨l, hl⟩ := (rl_ofInserts hs hx).ordered
    obtain ⟨l', hl'⟩ := (rl_ofInserts hs hy).ordered
    obtain rfl := hl.unique hl' fun k => by
      obtain ⟨d, h, h'⟩ := hplace k
      rw [h.posId, h'.posId]
    obtain ⟨es, hes, hmap⟩ := rl_list hg hx hl
    obtain ⟨es', hes', hmap'⟩ := rl_list hg hy hl'
    refine ⟨_, _, es, es', hes, hes', hmap.trans (Eq.trans ?_ hmap'.symm)⟩
    have hlook : ∀ k, (x.ht.node k).body.lookup = (y.ht.node k).body.lookup := fun k =>
      (rl_rwClosed hg hx k).lookup_congr (rl_rwClosed hg hy k) (mem_rlOn_congr hS k)
    simp only [hlook]
    refine List.map_congr_left fun k _ => ?_
    obtain ⟨d, h, h'⟩ := hplace k
    rw [h.oid, h'.oid, h.content, h'.content]

end Closed

/-! ## Concrete runs -/

/-- A test for `rlUnique`. -/
def rlUniqueOk (s : Sys (Fin n) (Option (RlSt n)) (RlMsg n)) : Ev (Fin n) LCmd → Bool
  | .op r o _ => ((rlObj n).prepare r (s.st r) o).2.all fun m => m.fresh.isNone ||
    decide (∀ q, ∀ j ∈ s.recv q, (s.log j).all fun p => p.2.fresh.isNone || p.2.id ≠ m.id)
  | .recv _ _ => true

theorem rlUnique_of_ok (s : Sys (Fin n) (Option (RlSt n)) (RlMsg n)) (e : Ev (Fin n) LCmd)
    (h : rlUniqueOk s e = true) : rlUnique s e := by
  cases e with
  | op r o i =>
    rintro m hm hf q m' ⟨j, hj, o', hl⟩ hf'
    simp only [rlUniqueOk, hm, Option.all_some, Bool.or_eq_true, decide_eq_true_eq] at h
    have hne := h.resolve_left (by simpa [Option.isSome_iff_ne_none] using hf) q j hj
    simp only [hl, Option.all_some, Bool.or_eq_true, decide_eq_true_eq] at hne
    exact hne.resolve_left (by simpa [Option.isSome_iff_ne_none] using hf')
  | recv r i => trivial

/-- A test for `rlListGuard`. -/
def rlListGuardOk (s : Sys (Fin n) (Option (RlSt n)) (RlMsg n)) (e : Ev (Fin n) LCmd) : Bool :=
  rlGuardOk s e && rlUniqueOk s e &&
    match e with
    | .op r o _ => ((rlObj n).prepare r (s.st r) o).2.all fun m =>
      m.fresh.isNone || !strEq m.id nullWord
    | .recv _ _ => true

theorem rlListGuard_of_ok (s : Sys (Fin n) (Option (RlSt n)) (RlMsg n)) (e : Ev (Fin n) LCmd)
    (h : rlListGuardOk s e = true) : rlListGuard s e := by
  simp only [rlListGuardOk, Bool.and_eq_true] at h
  refine ⟨rlGuard_of_ok s e h.1.1, rlUnique_of_ok s e h.1.2, ?_⟩
  cases e with
  | op r o i =>
    intro m hm hf
    have := h.2
    simp only [hm, Option.all_some, Bool.or_eq_true] at this
    simpa using this.resolve_left (by simpa [Option.isSome_iff_ne_none] using hf)
  | recv r i => trivial

/-- An element is removed and added again while another one is inserted. -/
def rlDemo : List (Ev (Fin 2) LCmd) :=
  let a : Sds := "a".toList
  [.op 0 (insertFront a 5) 0, .op 1 (insertFront "b".toList 7) 1, .op 0 (.rem 3 a) 2,
    .op 0 (.insert 9 "readd".toList a "d".toList (some 2) (some 2) (some 2) (some 0) 0) 3,
    .recv 1 3, .recv 1 2, .recv 1 0, .recv 0 1]

/-- The condition holds of a run in which operations are buffered. -/
theorem rl_membership_demo :
    let s := (rlObj 2).runOf rlDemo
    ∃ x y len len' es es', s.st 0 = some x ∧ s.st 1 = some y ∧
      rllist x.ht = some (len, es) ∧ rllist y.ht = some (len', es') ∧
      es.map (fun e => (e.oid, e.content)) = es'.map fun e => (e.oid, e.content) := by
  have h := rl_membership (Obj.reach_runOf rlListGuard_of_ok rlDemo (by decide +kernel))
  obtain ⟨x, hx, -⟩ := h.1 0
  obtain ⟨y, hy, -⟩ := h.1 1
  have hS : (((rlObj 2).runOf rlDemo).st 0).map RlSt.applied =
      (((rlObj 2).runOf rlDemo).st 1).map RlSt.applied := by decide +kernel
  rw [hx, hy, Option.map_some, Option.map_some] at hS
  obtain ⟨len, len', es, es', h'⟩ := h.2 0 1 x y hx hy (Option.some.inj hS)
  exact ⟨x, y, len, len', es, es', hx, hy, h'⟩

/-- A remove of the element `head` while the replicas have different first elements. -/
def rlHeadRun : List (Ev (Fin 2) LCmd) :=
  [.op 0 (insertFront "a".toList 5) 0, .op 1 (insertFront "b".toList 0) 1,
    .op 0 (.rem 3 "head".toList) 2, .recv 0 1, .recv 1 0, .recv 1 2]

/-- **A name of the table's own breaks convergence**: two replicas have applied the same operations,
received in the order of each origin, and list different elements. -/
theorem rl_head_diverges : ∃ s, (rlObj 2).Reach (fun s e => fifo s e ∧ rlUnique s e) s ∧
    ∃ x y, s.st 0 = some x ∧ s.st 1 = some y ∧ x.applied = y.applied ∧
      (rllist x.ht).map (fun p => p.2.map RlEntry.oid) = some ["b".toList] ∧
      (rllist y.ht).map (fun p => p.2.map RlEntry.oid) = some ["a".toList] := by
  refine ⟨(rlObj 2).runOf rlHeadRun, Obj.reach_runOf
    (g := fun s e => Obj.fifoOk s e && rlUniqueOk s e) (fun s e h => ?_) _ (by decide +kernel), ?_⟩
  · simp only [Bool.and_eq_true] at h
    exact ⟨Obj.fifo_of_fifoOk s e h.1, rlUnique_of_ok s e h.2⟩
  · have h : (((rlObj 2).runOf rlHeadRun).st 0).bind (fun x =>
        (((rlObj 2).runOf rlHeadRun).st 1).map fun y => decide (x.applied = y.applied ∧
          (rllist x.ht).map (fun p => p.2.map RlEntry.oid) = some ["b".toList] ∧
          (rllist y.ht).map (fun p => p.2.map RlEntry.oid) = some ["a".toList])) = some true := by
      decide +kernel
    obtain ⟨x, hx, h⟩ := Option.bind_eq_some_iff.mp h
    obtain ⟨y, hy, h⟩ := Option.map_eq_some_iff.mp h
    exact ⟨x, y, hx, hy, of_decide_eq_true h⟩

end CrdtRedis
