import CrdtRedis.RwfList.Length
import CrdtRedis.RwfList.Order

/-!
# The contents of the RWF list

The content of an element is that of the insert that gives it its place: the first one that the
replica applies, which need not be the fresh one.

* `RwflStep.content`: what one message does to the contents.
* `rwfl_content`: if no replica gives an element its place from an insert with another content than
  the fresh one's, then every replica has the contents of the fresh inserts, and replicas that
  received the same messages have the same contents.
* `rwfl_content_diverges`: a readd with another content that overtakes the fresh insert breaks it.
-/

namespace CrdtRedis

open Broadcast Ht

variable {n : ℕ}

/-- The content that an insert has for element `k`. -/
def RwflMsg.contentOf (k : Sds) : RwflMsg n → Option Sds
  | .insert _ id content .. => if id = k then some content else none
  | _ => none

/-- A message gives an element without a content the one that it has. -/
theorem RwflStep.content {ht ht' : RwfHt n} {m : RwflMsg n} (h : RwflStep ht ht' m) (hs : Sound ht)
    (k : Sds) : (ht'.node k).content = (ht.node k).content.or (m.contentOf k) := by
  cases m with
  | insert prev id content args pos t =>
    cases hoid : (ht.node id).oid with
    | some o =>
      rw [(h.place.1 (by simp [hoid])).content]
      by_cases hk : id = k
      · subst hk
        have hsome : (ht.node id).content.isSome := by rw [hs.content, ← hs.oid, hoid]; rfl
        obtain ⟨c, hc⟩ := Option.isSome_iff_exists.mp hsome
        simp [hc]
      · simp [RwflMsg.contentOf, hk]
    | none =>
      have hupd := congrFun (h.place.2 hoid).content k
      by_cases hk : id = k
      · subst hk
        have hnone : (ht.node id).content = none := by
          have := (hs.content id).trans (hs.oid id).symm
          simpa [hoid] using this
        simpa [RwflMsg.contentOf, hnone] using hupd
      · simpa [RwflMsg.contentOf, hk, Ne.symm hk] using hupd
  | update id type value lt t => simp [RwflMsg.contentOf, Kept.content h.place]
  | rem id t => simp [RwflMsg.contentOf, Kept.content h.place]

/-! ## Runs -/

section

variable (junk : Fin n → Sds → Normal → BitVec 32)

/-- Content `c` is that of a fresh insert of element `k`. -/
def FreshContent (s : Sys (Fin n) (Option (RwfHt n)) (RwflMsg n)) (k c : Sds) : Prop :=
  ∃ j o f, s.log j = some (o, f) ∧ f.isFresh ∧ f.contentOf k = some c

/-- Runs in which no replica receives an insert of an element that has no place there, with another
content than that of the element's fresh insert. -/
def rwflContentOk (s : Sys (Fin n) (Option (RwfHt n)) (RwflMsg n)) : Ev (Fin n) LCmd → Prop
  | .op _ _ _ => True
  | .recv r i => ∀ o m k c ht, s.log i = some (o, m) → m.contentOf k = some c →
    s.st r = some ht → (ht.node k).oid = none → FreshContent s k c

/-- The runs above of commands that name none of the table's own names and find room for their
identifiers, with unique fresh ids. -/
def rwflContentGuard (s : Sys (Fin n) (Option (RwfHt n)) (RwflMsg n)) (e : Ev (Fin n) LCmd) :
    Prop :=
  rwflGuard junk s e ∧ rwflUnique junk s e ∧ rwflContentOk s e

end

section Runs

variable {junk : Fin n → Sds → Normal → BitVec 32}
  {s : Sys (Fin n) (Option (RwfHt n)) (RwflMsg n)} {r : Fin n} {i : ℕ} {s₁ : Option (RwfHt n)}
  {m : RwflMsg n}

theorem freshContent_issue (hl : s.log i = none) (k c : Sds) :
    FreshContent ((rwflObj n junk).issue s r i s₁ m) k c ↔
      FreshContent s k c ∨ (m.isFresh ∧ m.contentOf k = some c) := by
  constructor
  · rintro ⟨j, o, f, hj, hf, hc⟩
    rcases Obj.issue_log_cases hj with ⟨rfl, heq⟩ | ⟨-, hj⟩
    · cases heq
      exact .inr ⟨hf, hc⟩
    · exact .inl ⟨j, o, f, hj, hf, hc⟩
  · rintro (⟨j, o, f, hj, hf, hc⟩ | ⟨hf, hc⟩)
    · exact ⟨j, o, f, Obj.issue_log_of_some hl hj, hf, hc⟩
    · exact ⟨i, r, m, Obj.issue_log_self, hf, hc⟩

/-- The id of a message with a content. -/
theorem RwflMsg.id_of_contentOf {k c : Sds} (h : m.contentOf k = some c) : m.id = k := by
  cases m with
  | insert prev id content args pos t => exact (Option.ite_none_right_eq_some.mp h).1
  | update id type value lt t => cases h
  | rem id t => cases h

/-- A command that sends an insert of an element without a place sends a fresh one. -/
theorem RwflSent.isFresh {ht ht' : RwfHt n} {o : LCmd} {k c : Sds} (h : RwflSent r ht ht' o m)
    (hs : Sound ht) (hc : m.contentOf k = some c) (hk : (ht.node k).content = none) :
    m.isFresh := by
  cases h with
  | @insert argc prev prev' id content _ _ _ _ rand args pos hargs hprev hpos =>
    obtain ⟨rfl, -⟩ := Option.ite_none_right_eq_some.mp hc
    rcases hpos.sent with ⟨-, hre, -⟩ | ⟨hx, -⟩
    · simp [RwflMsg.isFresh, RwflMsg.ins, hre]
    · have := hs.content id
      simp [hx, hk] at this
  | update _ _ => cases hc
  | rem _ _ => cases hc

/-- The elements with a content after one more message `i`. -/
theorem content_isSome_step {ht ht' : RwfHt n} {D : Finset ℕ}
    {log log' : ℕ → Option (Fin n × RwflMsg n)} {q : Fin n} {k : Sds}
    (hc : (ht'.node k).content = (ht.node k).content.or (m.contentOf k))
    (ih : (ht.node k).content.isSome ↔
      ∃ j ∈ D, ∃ o m', log j = some (o, m') ∧ (m'.contentOf k).isSome)
    (hold : ∀ j ∈ D, log' j = log j) (hnew : log' i = some (q, m)) :
    (ht'.node k).content.isSome ↔
      ∃ j ∈ insert i D, ∃ o m', log' j = some (o, m') ∧ (m'.contentOf k).isSome := by
  rw [hc, Option.isSome_or, Bool.or_eq_true, ih]
  constructor
  · rintro (⟨j, hj, o, m', hl, hm⟩ | hm)
    · exact ⟨j, by simp [hj], o, m', by rw [hold j hj, hl], hm⟩
    · exact ⟨i, by simp, q, m, hnew, hm⟩
  · rintro ⟨j, hj, o, m', hl, hm⟩
    rcases Finset.mem_insert.mp hj with rfl | hj
    · rw [hnew] at hl
      cases hl
      exact .inr hm
    · exact .inl ⟨j, hj, o, m', by rw [← hold j hj, hl], hm⟩

/-- An element has a content where an insert of it was received. -/
theorem rwfl_applied (hs : (rwflObj n junk).Reach (rwflGuard junk) s) :
    ∀ r ht, s.st r = some ht → ∀ k, (ht.node k).content.isSome ↔
      ∃ i ∈ s.recv r, ∃ o m, s.log i = some (o, m) ∧ (m.contentOf k).isSome := by
  refine rwfl_rule (I := fun s r ht => ∀ k, (ht.node k).content.isSome ↔
    ∃ i ∈ s.recv r, ∃ o m, s.log i = some (o, m) ∧ (m.contentOf k).isSome) hs (fun _ _ h => h)
    ?_ ?_ ?_ ?_ ?_
  · rintro r ht hst k
    cases hst
    simp [Ht.new, Node.new, Obj.start]
  · intro s q ht ht' hsame ih k
    rw [hsame.node]
    exact ih k
  · intro s s' q ht hs hrecv hlog ih k
    rw [ih k, hrecv]
    refine exists_congr fun j => and_congr_right fun hj => ?_
    obtain ⟨o, m, hl⟩ := hs.wf.log q j hj
    rw [hl, hlog j _ hl]
  · intro s r o i ht ht' ht₂ m hs hl hsd hsame _ hstep ih k
    have hcont := hstep.content (hsame.kept.sound hsd) k
    rw [hsame.node] at hcont
    rw [Obj.issue_recv_self]
    exact content_isSome_step hcont (ih k) (fun j hj => hs.wf.issue_log_recv hl hj)
      Obj.issue_log_self
  · intro s r i o m ht ht₂ _ _ hl _ hsd hstep _ ih k
    rw [Obj.deliver_recv_self]
    exact content_isSome_step (hstep.content hsd k) (ih k) (fun _ _ => rfl) hl

/-- The fresh inserts of an element have one content. -/
theorem freshContent_once (hs : (rwflObj n junk).Reach (rwflContentGuard junk) s) :
    ∀ k c c', FreshContent s k c → FreshContent s k c' → c = c' := by
  refine hs.rule (I := fun s => ∀ k c c', FreshContent s k c → FreshContent s k c' → c = c')
    ?_ (fun _ _ _ _ _ _ ih _ _ => ih) ?_ (fun _ _ _ _ _ _ ih _ _ _ => ih)
  · rintro k c c' ⟨j, o, f, hj, -⟩
    cases hj
  · intro s r o i s₁ m hs ih hg hp hl k c c' hc hc'
    -- A fresh insert is the first one of its element.
    have hnew : ∀ k c c', FreshContent s k c → m.isFresh → m.contentOf k = some c' → False := by
      rintro k c c' ⟨j, o', f, hj, hf, hc⟩ hm hc'
      refine hg.2.1 m (by rw [hp]) hm o' j (hs.wf.own j o' f hj) o' f hj hf ?_
      rw [RwflMsg.id_of_contentOf hc, RwflMsg.id_of_contentOf hc']
    rcases (freshContent_issue hl k c).mp hc with hc | ⟨hm, hc⟩ <;>
      rcases (freshContent_issue hl k c').mp hc' with hc' | ⟨hm', hc'⟩
    · exact ih k c c' hc hc'
    · exact (hnew k c c' hc hm' hc').elim
    · exact (hnew k c' c hc' hm hc).elim
    · exact Option.some.inj (hc.symm.trans hc')

/-- **The contents of a run** are those of the fresh inserts. -/
theorem rwfl_contents (hs : (rwflObj n junk).Reach (rwflContentGuard junk) s) :
    ∀ r ht, s.st r = some ht → ∀ k c, (ht.node k).content = some c → FreshContent s k c := by
  refine rwfl_rule (I := fun s _ ht => ∀ k c, (ht.node k).content = some c → FreshContent s k c)
    hs (fun _ _ h => h.1) ?_ ?_ ?_ ?_ ?_
  · rintro r ht hst k c hc
    cases hst
    cases hc
  · intro s q ht ht' hsame ih k c hc
    exact ih k c (hsame.node ▸ hc)
  · intro s s' q ht _ _ hlog ih k c hc
    obtain ⟨j, o, f, hj, hf⟩ := ih k c hc
    exact ⟨j, o, f, hlog j _ hj, hf⟩
  · intro s r o i ht ht' ht₂ m _ hl hsd hsame hsent hstep ih k c hc
    rw [hstep.content (hsame.kept.sound hsd), hsame.node, Option.or_eq_some_iff] at hc
    rw [freshContent_issue hl]
    rcases hc with hc | ⟨hnone, hc⟩
    · exact .inl (ih k c hc)
    · exact .inr ⟨hsent.isFresh hsd hc hnone, hc⟩
  · intro s r i o m ht ht₂ _ hg hl hst hsd hstep _ ih k c hc
    rw [hstep.content hsd, Option.or_eq_some_iff] at hc
    rcases hc with hc | ⟨hnone, hc⟩
    · exact ih k c hc
    · refine hg.2.2 o m k c ht hl hc hst ?_
      have := (hsd.content k).trans (hsd.oid k).symm
      simpa [hnone] using this.symm

/-- **Convergence of contents**: in every such run every replica stores the contents of the fresh
inserts, and replicas that received the same messages store the same contents. -/
theorem rwfl_content (hs : (rwflObj n junk).Reach (rwflContentGuard junk) s) :
    (∀ r, ∃ ht, s.st r = some ht ∧ ∀ k c, (ht.node k).content = some c → FreshContent s k c) ∧
    ∀ r q ht ht', s.st r = some ht → s.st q = some ht' → s.recv r = s.recv q →
      ∀ k, (ht.node k).content = (ht'.node k).content := by
  have h := rwfl_contents hs
  have happ := rwfl_applied (hs.mono fun _ _ h => h.1)
  refine ⟨fun r => ?_, fun r q ht ht' hr hq hD k => ?_⟩
  · obtain ⟨ht, hst, -⟩ := (rwfl_typed (hs.mono fun _ _ h => h.1)).1 r
    exact ⟨ht, hst, h r ht hst⟩
  · have hiff : (ht.node k).content.isSome ↔ (ht'.node k).content.isSome := by
      rw [happ r ht hr, happ q ht' hq, hD]
    cases hc : (ht.node k).content with
    | none =>
      simp only [hc, Option.isSome_none, Bool.false_eq_true, false_iff,
        Option.not_isSome_iff_eq_none] at hiff
      exact hiff.symm
    | some c =>
      obtain ⟨c', hc'⟩ := Option.isSome_iff_exists.mp (hiff.mp (by simp [hc]))
      rw [hc', freshContent_once hs k c c' (h r ht hr k c hc) (h q ht' hq k c' hc')]

end Runs

/-! ## Concrete runs -/

/-- A test for `rwflContentGuard`. -/
def rwflContentGuardOk (junk : Fin n → Sds → Normal → BitVec 32)
    (s : Sys (Fin n) (Option (RwfHt n)) (RwflMsg n)) (e : Ev (Fin n) LCmd) : Bool :=
  rwflGuardOk s e && rwflUniqueOk junk s e &&
    match e with
    | .op _ _ _ => true
    | .recv r i =>
      match s.log i, s.st r with
      | some (_, .insert _ id content _ _ _), some ht => (ht.node id).oid.isSome ||
        decide (∃ q, ∃ j ∈ s.recv q, (s.log j).any fun p =>
          p.2.isFresh && p.2.contentOf id = some content)
      | _, _ => true

theorem rwflContentGuard_of_ok (junk : Fin n → Sds → Normal → BitVec 32)
    (s : Sys (Fin n) (Option (RwfHt n)) (RwflMsg n)) (e : Ev (Fin n) LCmd)
    (h : rwflContentGuardOk junk s e = true) : rwflContentGuard junk s e := by
  simp only [rwflContentGuardOk, Bool.and_eq_true] at h
  refine ⟨rwflGuard_of_ok junk s e h.1.1, rwflUnique_of_ok junk s e h.1.2, ?_⟩
  cases e with
  | op r o i => trivial
  | recv r i =>
    intro o m k c ht hl hc hst hoid
    cases m with
    | insert prev id content args pos t =>
      obtain ⟨rfl, heq⟩ := Option.ite_none_right_eq_some.mp hc
      cases heq
      have h := h.2
      simp only [hl, hst, hoid, Option.isSome_none, Bool.false_or, decide_eq_true_eq] at h
      obtain ⟨q, j, -, hj⟩ := h
      cases hf : s.log j with
      | none => simp [hf] at hj
      | some p =>
        simp only [hf, Option.any_some, Bool.and_eq_true, decide_eq_true_eq] at hj
        exact ⟨j, p.1, p.2, hf, hj.1, hj.2⟩
    | update id type value lt t => cases hc
    | rem id t => cases hc

/-- A readd of an element, with content `d`. -/
def readdWith (a d : Sds) : LCmd :=
  .insert 9 "readd".toList a d (some 2) (some 2) (some 2) (some 0) 0

/-- An element is added again with another content, and the other replica gets the messages in
order. -/
def rwflContentDemo : List (Ev (Fin 2) LCmd) :=
  let a : Sds := "a".toList
  [.op 0 (insertFront a 5) 0, .op 0 (.rem 3 a) 1, .op 0 (readdWith a "d".toList) 2, .recv 1 0,
    .recv 1 1, .recv 1 2]

/-- The condition holds of a run with a readd that has another content. -/
theorem rwfl_content_demo : ∃ ht ht' : RwfHt 2,
    ((rwflObj 2 fun _ _ _ => 0).runOf rwflContentDemo).st 0 = some ht ∧
    ((rwflObj 2 fun _ _ _ => 0).runOf rwflContentDemo).st 1 = some ht' ∧
    ∀ k, (ht.node k).content = (ht'.node k).content := by
  have h := rwfl_content (Obj.reach_runOf (rwflContentGuard_of_ok fun _ _ _ => 0) rwflContentDemo
    (by decide +kernel))
  obtain ⟨ht, hr, -⟩ := h.1 0
  obtain ⟨ht', hq, -⟩ := h.1 1
  exact ⟨ht, ht', hr, hq, h.2 0 1 ht ht' hr hq (by decide +kernel)⟩

/-- Replica `2` gets the remove and the readd of an element before its fresh insert. -/
def rwflContentRun : List (Ev (Fin 3) LCmd) :=
  let a : Sds := "a".toList
  [.op 0 (insertFront a 5) 0, .recv 1 0, .op 1 (.rem 3 a) 1, .op 1 (readdWith a "d".toList) 2,
    .recv 2 1, .recv 2 2, .recv 2 0, .recv 0 1, .recv 0 2]

/-- **A readd that overtakes the fresh insert breaks convergence**: with links in order, replicas
that received the same messages list one element with different contents. -/
theorem rwfl_content_diverges : ∃ s,
    (rwflObj 3 fun _ _ _ => 0).Reach (fun s e => fifo s e ∧ rwflListGuard (fun _ _ _ => 0) s e) s ∧
    s.recv 0 = s.recv 2 ∧
    (s.st 0).bind (fun ht => (rwfllist ht).map fun x => x.2.map fun e => (e.oid, e.content)) =
      some [("a".toList, "c".toList)] ∧
    (s.st 2).bind (fun ht => (rwfllist ht).map fun x => x.2.map fun e => (e.oid, e.content)) =
      some [("a".toList, "d".toList)] := by
  refine ⟨(rwflObj 3 fun _ _ _ => 0).runOf rwflContentRun, Obj.reach_runOf
    (g := fun s e => Obj.fifoOk s e && rwflListGuardOk (fun _ _ _ => 0) s e) (fun s e h => ?_) _
    (by decide +kernel), by decide +kernel, by decide +kernel, by decide +kernel⟩
  simp only [Bool.and_eq_true] at h
  exact ⟨Obj.fifo_of_fifoOk s e h.1, rwflListGuard_of_ok _ s e h.2⟩

end CrdtRedis
