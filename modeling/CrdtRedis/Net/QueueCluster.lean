import CrdtRedis.Net.Cluster
import CrdtRedis.QueueDb
import CrdtRedis.Wire

/-!
# A cluster of RWF queues

The writes of `t_rwfzset.c` over strings: the key and the element are arguments, a number is the
text that the client gave (`num` reads it), and the clock travels as text (`vcToSds`, `sdsToVC`).
The requests name queues (`IsQueueName`), and no other command writes the database. Numbers are
exact: `double` adds them without rounding.

* `queueView`: one element of one queue, as the replicated object of `RwfZset`.
* `queue_cluster_converges`: in a quiescent state of a cluster, every two servers have the same
  metadata and the same score for every element of every queue.
-/

namespace CrdtRedis

open Broadcast

variable {n : ℕ}

/-! ## Clocks as text -/

/-- A clock as it lies in memory. -/
def clockRaw (t : Clock n) : RawVc := ⟨List.ofFn fun i => (t.vector i : ℤ), (t.id.val : ℤ)⟩

/-- A clock of `n` entries, from memory. -/
def rawClock (n : ℕ) (c : RawVc) : Option (Clock n) :=
  if h : c.vector.length = n ∧ 0 ≤ c.id ∧ c.id.toNat < n then
    some ⟨fun i => (c.vector.get ⟨i.val, h.1 ▸ i.isLt⟩).toNat, ⟨c.id.toNat, h.2.2⟩⟩
  else none

theorem rawClock_clockRaw (t : Clock n) : rawClock n (clockRaw t) = some t := by
  have h : (clockRaw t).vector.length = n ∧ 0 ≤ (clockRaw t).id ∧ (clockRaw t).id.toNat < n :=
    ⟨by simp [clockRaw], by simp [clockRaw], by simp [clockRaw]⟩
  unfold rawClock
  rw [dif_pos h]
  congr 1
  ext i
  · simp [clockRaw]
  · simp [clockRaw]

/-- `vcToSds`. -/
def clockText (t : Clock n) : Sds := (vcToSds (clockRaw t)).getD []

/-- `sdsToVC`. -/
def readClock (n : ℕ) (s : Sds) : Option (Clock n) := (sdsToVC s).bind (rawClock n)

/-- The entries of a clock fit into an `int`. -/
def Vc.Fits (t : Clock n) : Prop := ∀ i, t.vector i < 2 ^ 31

theorem readClock_clockText (hn : n ≤ 100) {t : Clock n} (ht : t.Fits) :
    readClock n (clockText t) = some t := by
  have hpos : 0 < n := t.id.pos
  have hint : (clockRaw t).InInt := by
    refine ⟨fun x hx => ?_, ?_⟩
    · obtain ⟨i, rfl⟩ := List.mem_ofFn.mp hx
      have := ht i
      constructor <;> omega
    · have := t.id.isLt
      simp only [clockRaw]
      constructor <;> omega
  have hfit : (clockRaw t).vector ≠ [] ∧ (clockRaw t).vector.length ≤ vcIntBuf := by
    refine ⟨fun h => ?_, by simpa [clockRaw, vcIntBuf] using hn⟩
    have hlen := congrArg List.length h
    simp only [clockRaw, List.length_ofFn, List.length_nil] at hlen
    omega
  have hround := vcToSds_sdsToVC hint
  rw [if_pos hfit] at hround
  cases htext : vcToSds (clockRaw t) with
  | none =>
    rw [htext] at hround
    cases hround
  | some s =>
    rw [htext, Option.bind_some] at hround
    rw [readClock, clockText, htext, Option.getD_some, hround, Option.bind_some,
      rawClock_clockRaw]

/-! ## The commands -/

/-- The queue and the element that a command names. -/
def queueKey (argv : List Sds) : Sds × Sds := (argv.getD 1 [], argv.getD 2 [])

variable (num : Sds → Option ℚ)

/-- The number of a command. -/
def queueNum (argv : List Sds) : Option ℚ := (argv[3]?).bind num

def queueCmd (w : RwfzWrite) (argv : List Sds) : ZCmd :=
  match w with
  | .add => .zadd argv.length (queueNum num argv)
  | .incrby => .zincrby argv.length (queueNum num argv)
  | .rem => .zrem argv.length

def queueMsg (w : RwfzWrite) (rargv : List Sds) (t : Clock n) : RwfzMsg n :=
  match w with
  | .add => .add ((queueNum num rargv).getD 0) t
  | .incrby => .upd ((queueNum num rargv).getD 0) t
  | .rem => .rem t

/-- The phases of the writes. What is under the keys of a queue is its own, and a server sends no
clock that cannot be read: elsewhere the phases are undefined. -/
def queueTable (r : Fin n) : CrdtTable Sds (Db n) RwfzWrite where
  prepare w db argv :=
    match rwfzDbPrepare r db (queueKey argv) (queueCmd num w argv) with
    | none => (db, none)
    | some (db, res) => (db, res.toOption.map fun m => [clockText m.t])
  effect w db rargv :=
    match readClock n (rargv.getLastD []) with
    | none => db
    | some t => rwfzDbEffect r db (queueKey rargv) (queueMsg num w rargv t)

/-- `lookupCommand`. -/
def queueLookup (name : Sds) : Option RwfzWrite :=
  if strCaseEq name "rwfzadd" then some .add
  else if strCaseEq name "rwfzincrby" then some .incrby
  else if strCaseEq name "rwfzrem" then some .rem
  else none

def queueProgram (n : ℕ) : ServerProgram n (Db n) RwfzWrite where
  init _ _ := none
  table := queueTable num
  lookupCommand := queueLookup
  minArgc
    | .add => 4
    | .incrby => 4
    | .rem => 3
  prepared_shape _ _ _ _ := ⟨rfl, rfl⟩
  left_shape _ _ _ _ := ⟨rfl, rfl⟩
  left_effect _ _ _ _ := rfl

/-- The clock that a write would send fits into its type. -/
def ClockFits (r : Fin n) (db : Db n) (argv : List Sds) : Prop :=
  ∀ w m, (queueProgram num n).write argv = some w →
    (rwfzPrepare r (db.cell (queueKey argv)) (queueCmd num w argv)).2 = .ok m → m.t.Fits

/-- A request names a queue, and the clock that it would send fits into its type. -/
def QueueOk (r : Fin n) (db : Db n) (argv : List Sds) : Prop :=
  IsQueueName (queueKey argv).1 ∧ ClockFits num r db argv

/-! ## One element -/

/-- The message that an argument vector stands for. -/
def queueMsgOf (n : ℕ) (m : List Sds) : Option (RwfzMsg n) :=
  ((queueProgram num n).write m).bind fun w => (readClock n (m.getLastD [])).map (queueMsg num w m)

section Element

variable {num} {r : Fin n} {db : Db n} {argv : List Sds} {w : RwfzWrite}

theorem queue_effect_eq (r : Fin n) (db : Db n) (m : List Sds) :
    (argvObj (queueProgram num n)).effect r db m = match queueMsgOf num n m with
      | none => db
      | some μ => rwfzDbEffect r db (queueKey m) μ := by
  simp only [argvObj, queueMsgOf]
  cases hw : (queueProgram num n).write m with
  | none => rfl
  | some w =>
    simp only [Option.bind_some, queueProgram, queueTable]
    cases readClock n (m.getLastD []) <;> rfl

theorem queueWrite_length (hw : (queueProgram num n).write argv = some w) :
    (queueProgram num n).minArgc w ≤ argv.length := by
  cases argv with
  | nil => cases hw
  | cons name args =>
    simp only [ServerProgram.write, Option.filter_eq_some_iff, decide_eq_true_eq] at hw
    exact hw.2

/-- What an accepted command sends, in terms of its arguments. -/
theorem queuePrepare_ok {c : RwfzCell n} {m : RwfzMsg n}
    (hw : (queueProgram num n).write argv = some w)
    (hp : (rwfzPrepare r c (queueCmd num w argv)).2 = .ok m) :
    m = queueMsg num w argv m.t ∧ (w ≠ .rem → argv.length = 4) ∧ 3 ≤ argv.length := by
  have hlen := queueWrite_length hw
  cases w with
  | add =>
    simp only [queueCmd, rwfzPrepare] at hp
    split at hp
    · cases hp
    · cases hp
    · rename_i hnum hargc
      have hv := checkArg_ok hnum
      have hle := checkArgc_le (checkArgc_ok hargc)
      split at hp
      · cases hp
      · cases hp
        exact ⟨by simp [queueMsg, hv, RwfMsg.t], fun _ => le_antisymm hle hlen,
          le_trans (show 3 ≤ 4 by decide) hlen⟩
  | incrby =>
    simp only [queueCmd, rwfzPrepare] at hp
    split at hp
    · cases hp
    · cases hp
    · cases hp
    · rename_i hnum _ hargc
      have hv := checkArg_ok hnum
      have hle := checkArgc_le (checkArgc_ok hargc)
      split at hp
      · cases hp
        exact ⟨by simp [queueMsg, hv, RwfMsg.t], fun _ => le_antisymm hle hlen,
          le_trans (show 3 ≤ 4 by decide) hlen⟩
      · cases hp
  | rem =>
    simp only [queueCmd, rwfzPrepare] at hp
    split at hp
    · cases hp
    · cases hp
    · split at hp
      · cases hp
        exact ⟨rfl, fun h => absurd rfl h, hlen⟩
      · cases hp

/-- The prepare phase of a write, in terms of the cell that it names. -/
theorem queueTable_prepare (num : Sds → Option ℚ) (r : Fin n) (w : RwfzWrite) (hdb : QueueDb db)
    (hname : IsQueueName (queueKey argv).1) :
    ∃ db', (queueTable num r).prepare w db argv =
        (db', (rwfzPrepare r (db.cell (queueKey argv)) (queueCmd num w argv)).2.toOption.map
          fun m => [clockText m.t]) ∧
      QueueDb db' ∧ ∀ k, IsQueueName k.1 → db'.cell k = if k = queueKey argv then
        (rwfzPrepare r (db.cell (queueKey argv)) (queueCmd num w argv)).1 else db.cell k := by
  obtain ⟨db', hprep, hdb', hcell⟩ :=
    rwfzDbPrepare_cell (r := r) hdb hname (queueCmd num w argv)
  refine ⟨db', ?_, hdb', hcell⟩
  simp only [queueTable, hprep]
  cases (rwfzPrepare r (db.cell (queueKey argv)) (queueCmd num w argv)).2 <;> rfl

/-- A command of the cluster, in terms of the queue: it names no write, or it is prepared by the
cell that it names. -/
theorem queue_prepare {db₁ : Db n} {m : Option (List Sds)} (hdb : QueueDb db)
    (hname : IsQueueName (queueKey argv).1)
    (hp : (argvObj (queueProgram num n)).prepare r db argv = (db₁, m)) :
    (db₁ = db ∧ m = none) ∨ ∃ w, (queueProgram num n).write argv = some w ∧ QueueDb db₁ ∧
      m = (rwfzPrepare r (db.cell (queueKey argv)) (queueCmd num w argv)).2.toOption.map
        (fun μ => argv ++ [clockText μ.t]) ∧
      ∀ k, IsQueueName k.1 → db₁.cell k = if k = queueKey argv then
        (rwfzPrepare r (db.cell (queueKey argv)) (queueCmd num w argv)).1 else db.cell k := by
  simp only [argvObj] at hp
  split at hp
  · cases hp
    exact .inl ⟨rfl, rfl⟩
  · rename_i w hw
    obtain ⟨db', hprep, hdb', hcell⟩ := queueTable_prepare num r w hdb hname
    have htable : ((queueProgram num n).table r).prepare w db argv = _ := hprep
    rw [htable] at hp
    cases hp
    refine .inr ⟨w, hw, hdb', ?_, hcell⟩
    rw [Option.map_map]
    rfl

/-- An accepted command of the cluster, in terms of the queue. -/
theorem queue_prepare_some {db₁ : Db n} {m : List Sds} (hdb : QueueDb db)
    (hname : IsQueueName (queueKey argv).1)
    (hp : (argvObj (queueProgram num n)).prepare r db argv = (db₁, some m)) :
    ∃ w μ, (queueProgram num n).write argv = some w ∧
      (rwfzPrepare r (db.cell (queueKey argv)) (queueCmd num w argv)).2 = .ok μ ∧
      m = argv ++ [clockText μ.t] ∧ QueueDb db₁ ∧
      ∀ k, IsQueueName k.1 → db₁.cell k = if k = queueKey argv then
        (rwfzPrepare r (db.cell (queueKey argv)) (queueCmd num w argv)).1 else db.cell k := by
  rcases queue_prepare hdb hname hp with ⟨-, hm⟩ | ⟨w, hw, hdb₁, hm, hcell⟩
  · cases hm
  · cases hres : (rwfzPrepare r (db.cell (queueKey argv)) (queueCmd num w argv)).2 with
    | error err =>
      rw [hres] at hm
      cases hm
    | ok μ =>
      rw [hres] at hm
      cases hm
      exact ⟨w, μ, hw, hres, rfl, hdb₁, hcell⟩

/-- The message that is sent stands for the message of the object. -/
theorem queueMsgOf_sent (hn : n ≤ 100) {c : RwfzCell n} {m : RwfzMsg n}
    (hw : (queueProgram num n).write argv = some w)
    (hp : (rwfzPrepare r c (queueCmd num w argv)).2 = .ok m) (ht : m.t.Fits) :
    queueMsgOf num n (argv ++ [clockText m.t]) = some m ∧
      queueKey (argv ++ [clockText m.t]) = queueKey argv := by
  obtain ⟨hm, hfour, hthree⟩ := queuePrepare_ok hw hp
  have hget : ∀ i, i < argv.length → (argv ++ [clockText m.t])[i]? = argv[i]? :=
    fun i hi => List.getElem?_append_left hi
  have hmsg : queueMsg num w (argv ++ [clockText m.t]) m.t = queueMsg num w argv m.t := by
    cases w with
    | rem => rfl
    | add => simp only [queueMsg, queueNum, hget 3 (by rw [hfour nofun]; omega)]
    | incrby => simp only [queueMsg, queueNum, hget 3 (by rw [hfour nofun]; omega)]
  refine ⟨?_, ?_⟩
  · simp only [queueMsgOf, ServerProgram.write_append hw, Option.bind_some, List.getLastD_concat,
      readClock_clockText hn ht, Option.map_some, hmsg]
    exact congrArg some hm.symm
  · simp only [queueKey, List.getD_eq_getElem?_getD, hget 1 (by omega), hget 2 (by omega)]

variable {k : Sds × Sds} {db₁ : Db n} {m : List Sds}

/-- A command that is rejected is rejected by the element it names. -/
theorem queue_reject (hdb : QueueDb db) (hname : IsQueueName (queueKey argv).1)
    (hk : IsQueueName k.1)
    (hp : (argvObj (queueProgram num n)).prepare r db argv = (db₁, none)) :
    db₁.cell k = db.cell k ∨ ∃ o, (rwfzEleObj n).prepare r (db.cell k) o = (db₁.cell k, none) := by
  rcases queue_prepare hdb hname hp with ⟨rfl, -⟩ | ⟨w, -, -, hm, hcell⟩
  · exact .inl rfl
  · by_cases heq : k = queueKey argv
    · subst heq
      refine .inr ⟨queueCmd num w argv, ?_⟩
      simp [rwfzEleObj, hcell _ hk, Option.map_eq_none_iff.mp hm.symm]
    · exact .inl (by rw [hcell k hk, if_neg heq])

/-- What the view of element `k` shows of a message. -/
def queueShow (num : Sds → Option ℚ) (n : ℕ) (k : Sds × Sds) (m : List Sds) :
    Option (RwfzMsg n) := if queueKey m = k then queueMsgOf num n m else none

/-- A command that is accepted is about the element it names, and is shown there as it is. -/
theorem queue_accept (hn : n ≤ 100) (hdb : QueueDb db) (hok : QueueOk num r db argv)
    (hk : IsQueueName k.1)
    (hp : (argvObj (queueProgram num n)).prepare r db argv = (db₁, some m)) :
    (queueKey argv ≠ k ∧ db₁.cell k = db.cell k ∧ queueShow num n k m = none) ∨
      ∃ o μ, queueShow num n k m = some μ ∧
        (rwfzEleObj n).prepare r (db.cell k) o = (db₁.cell k, some μ) := by
  obtain ⟨w, μ, hw, hres, rfl, -, hcell⟩ := queue_prepare_some hdb hok.1 hp
  obtain ⟨hof, hkey⟩ := queueMsgOf_sent hn hw hres (hok.2 w μ hw hres)
  by_cases heq : queueKey argv = k
  · subst heq
    refine .inr ⟨queueCmd num w argv, μ, ?_, ?_⟩
    · rw [queueShow, if_pos hkey, hof]
    · simp [rwfzEleObj, hcell _ hk, hres, Except.toOption]
  · exact .inl ⟨heq, by rw [hcell k hk, if_neg (Ne.symm heq)], by rw [queueShow, hkey, if_neg heq]⟩

theorem queueView_hide (hn : n ≤ 100) (hdb : QueueDb db) (hok : QueueOk num r db argv)
    (hk : IsQueueName k.1)
    (hp : (argvObj (queueProgram num n)).prepare r db argv = (db₁, some m))
    (hm : queueShow num n k m = none) : db₁.cell k = db.cell k := by
  rcases queue_accept hn hdb hok hk hp with ⟨-, hsame, -⟩ | ⟨o, μ, hshow, -⟩
  · exact hsame
  · rw [hm] at hshow
    cases hshow

theorem queueView_accept (hn : n ≤ 100) (hdb : QueueDb db) (hok : QueueOk num r db argv)
    (hk : IsQueueName k.1)
    (hp : (argvObj (queueProgram num n)).prepare r db argv = (db₁, some m)) {μ : RwfzMsg n}
    (hm : queueShow num n k m = some μ) :
    ∃ o, (rwfzEleObj n).prepare r (db.cell k) o = (db₁.cell k, some μ) := by
  rcases queue_accept hn hdb hok hk hp with ⟨-, -, hnone⟩ | ⟨o, μ', hshow, hprep⟩
  · rw [hm] at hnone
    cases hnone
  · rw [hm] at hshow
    cases hshow
    exact ⟨o, hprep⟩

/-- A prepare phase leaves a database of queues, and sends messages about queues. -/
theorem queueDb_prepare (hn : n ≤ 100) (hdb : QueueDb db) (hok : QueueOk num r db argv)
    {m : Option (List Sds)} (hp : (argvObj (queueProgram num n)).prepare r db argv = (db₁, m)) :
    QueueDb db₁ ∧ ∀ m' ∈ m, IsQueueName (queueKey m').1 := by
  cases m with
  | none =>
    refine ⟨?_, fun m' hm' => by cases hm'⟩
    rcases queue_prepare hdb hok.1 hp with ⟨rfl, -⟩ | ⟨w, -, hdb₁, -⟩
    · exact hdb
    · exact hdb₁
  | some m =>
    obtain ⟨w, μ, hw, hres, rfl, hdb₁, -⟩ := queue_prepare_some hdb hok.1 hp
    refine ⟨hdb₁, fun m' hm' => ?_⟩
    cases hm'
    rw [(queueMsgOf_sent hn hw hres (hok.2 w μ hw hres)).2]
    exact hok.1

/-- A message changes the element that shows it, and no other. -/
theorem queue_effect_at (hdb : QueueDb db) (hm : IsQueueName (queueKey m).1)
    (hk : IsQueueName k.1) :
    ((argvObj (queueProgram num n)).effect r db m).cell k =
      ((queueShow num n k m).map (rwfzEffect r (db.cell k))).getD (db.cell k) := by
  rw [queue_effect_eq, queueShow]
  cases hof : queueMsgOf num n m with
  | none => simp
  | some μ =>
    simp only [(rwfzDbEffect_cell hdb hm μ).2 k hk]
    by_cases heq : queueKey m = k
    · subst heq
      simp
    · simp [heq, Ne.symm heq]

theorem queueDb_effect (hdb : QueueDb db) (hm : IsQueueName (queueKey m).1) :
    QueueDb ((argvObj (queueProgram num n)).effect r db m) := by
  rw [queue_effect_eq]
  split
  · exact hdb
  · exact (rwfzDbEffect_cell hdb hm _).1

end Element

/-- One element of one queue, as the replicated object. A message about another one, and one that
stands for nothing, is hidden. -/
def queueView (hn : n ≤ 100) (k : Sds × Sds) (hk : IsQueueName k.1) :
    View (argvObj (queueProgram num n)) (rwfzEleObj n) where
  st _ db := db.cell k
  msg := queueShow num n k
  inv _ db := QueueDb db
  okOp := QueueOk num
  okMsg m := IsQueueName (queueKey m).1
  init _ := rfl
  inv_init _ := .empty
  inv_prepare hdb hok hp := queueDb_prepare hn hdb hok hp
  inv_effect hdb hm := queueDb_effect hdb hm
  reject hdb hok hp := queue_reject hdb hok.1 hk hp
  hide hdb hok hp hm := queueView_hide hn hdb hok hk hp hm
  accept hdb hok hp hm := queueView_accept hn hdb hok hk hp hm
  effect_hide hdb hok hm := (queue_effect_at hdb hok hk).trans (by rw [hm]; rfl)
  effect hdb hok hm := (queue_effect_at hdb hok hk).trans (by rw [hm]; rfl)

/-- **A cluster of queues converges**: in every quiescent state that a cluster of at most 100
servers reaches, by whatever cuts of the bytes and pauses, every two servers agree on every element
of every queue: on its metadata, and on its score in the sorted set or that it is not there. The
requests name queues, values are exact numbers, the clocks that are sent fit into an `int`, the
messages are within the limits of the protocol, and a server that has freed the client of a link
sends none. -/
theorem queue_cluster_converges (num : Sds → Option ℚ) (cfg : InCfg) (hn : n ≤ 100)
    (c : Cluster n (Db n)) (hc : ClusterReach (queueProgram num n) cfg (QueueOk num) c)
    (hq : c.Quiescent) (k : Sds × Sds) (hk : IsQueueName k.1) (q r : Fin n) :
    let e := ((c.db q).cell k).get q
    let e' := ((c.db r).cell k).get r
    e.header.pid = e'.header.pid ∧ e.header.current.vector = e'.header.current.vector ∧
      e.innate = e'.innate ∧ e.acquired = e'.acquired ∧
      ((c.db q).cell k).zset = ((c.db r).cell k).zset := by
  obtain ⟨s, ⟨_, hs⟩, hrecv⟩ := hc.sys
  have hQ : (rwfzEleObj n).Reach anyOrder ((queueView num hn k hk).sys s) :=
    ((queueView num hn k hk).reach (fun s r o i hg => hg.2 r o i rfl) (fun _ _ _ _ => trivial)
      (fun _ _ _ _ _ _ _ => trivial) hs.reach).1
  have hsys : ∀ p, ((queueView num hn k hk).sys s).st p = (c.db p).cell k :=
    fun p => congrArg (Db.cell · k) (congrFun hs.st p)
  have hD : ((queueView num hn k hk).sys s).recv q = ((queueView num hn k hk).sys s).recv r := by
    simp only [View.sys, hrecv hq q r]
  have hagree := (rwfzEle_closed hQ q).agree (rwfzEle_closed hQ r) hD
  have hzset := rwfzEle_zset_agree hQ hD
  simp only [hsys] at hagree hzset
  obtain ⟨hpid, hcur, hinn, hacq⟩ := hagree
  exact ⟨hpid, hcur, hinn, hacq, hzset⟩

/-! ## A run of two servers -/

/-- The text of one number. -/
def readFive (s : Sds) : Option ℚ := if s = ['5'] then some 5 else none

def addFive : List Sds := ["rwfzadd".toList, ['q'], ['a'], ['5']]

/-- Server 0 adds an element, its event loop writes, and server 1 reads what it wrote in two
pieces. -/
def queueEvents : List (ClusterEv 2) :=
  [.request 0 outEnvPlain addFive, .io 0 1 outEnvPlain (.beforeSleep [(300, true)] true true),
    .read 1 0 outEnvPlain 20 (fun _ => false) (fun _ => [['+']]),
    .read 1 0 outEnvPlain 300 (fun _ => false) (fun _ => [['+']])]

/-- The cluster after the events. -/
def queueAfter : Cluster 2 (Db 2) :=
  (clusterRun (queueProgram readFive 2) inCfgDefault (clusterNew (queueProgram readFive 2))
    queueEvents).getD (clusterNew (queueProgram readFive 2))

theorem queueAfter_reach :
    ClusterReach (queueProgram readFive 2) inCfgDefault (QueueOk readFive) queueAfter := by
  have hsome : (clusterRun (queueProgram readFive 2) inCfgDefault
      (clusterNew (queueProgram readFive 2)) queueEvents).isSome = true := by decide +kernel
  obtain ⟨c, hc⟩ := Option.isSome_iff_exists.mp hsome
  have hafter : queueAfter = c := by rw [queueAfter, hc, Option.getD_some]
  rw [hafter]
  have hok : RunOk (queueProgram readFive 2) inCfgDefault (QueueOk readFive)
      (clusterNew (queueProgram readFive 2)) queueEvents := by
    refine ⟨⟨?_, ?_⟩, fun _ _ =>
      ⟨trivial, fun _ _ => ⟨trivial, fun _ _ => ⟨trivial, fun _ _ => trivial⟩⟩⟩⟩
    · refine ⟨by decide +kernel, fun w m hw hp i => ?_⟩
      have hadd : (queueProgram readFive 2).write addFive = some .add := rfl
      obtain rfl : RwfzWrite.add = w := Option.some.inj (hadd.symm.trans hw)
      cases hp
      decide +revert
    · intro m hm
      have hmsg : ((argvObj (queueProgram readFive 2)).prepare 0
          ((clusterNew (queueProgram readFive 2)).db 0) addFive).2 =
          some (addFive ++ ["0,0|0".toList]) := by decide +kernel
      rw [hmsg] at hm
      cases hm
      exact ⟨⟨by decide, by decide, by decide, by decide⟩, fun _ _ => rfl⟩
  exact (ClusterReach.start (clusterNew_start _)).run hok hc

theorem queueAfter_quiescent : queueAfter.Quiescent := by
  have h : ∀ q r : Fin 2, q ≠ r → (queueAfter.stream q r).out.pending = [] ∧
      (queueAfter.stream q r).wire = [] ∧ (queueAfter.stream q r).inp.querybuf = [] ∧
      (queueAfter.stream q r).inp.closed = false := by decide +kernel
  exact h

/-- The hypotheses hold of that run, in which both servers show the element. -/
theorem queue_cluster_converges_run :
    ((queueAfter.db 0).cell (['q'], ['a'])).zset = some 5 ∧
      ((queueAfter.db 0).cell (['q'], ['a'])).zset = ((queueAfter.db 1).cell (['q'], ['a'])).zset :=
  ⟨by decide +kernel, (queue_cluster_converges readFive inCfgDefault (by decide) queueAfter
    queueAfter_reach queueAfter_quiescent (['q'], ['a']) (by decide +kernel) 0 1).2.2.2.2⟩

/-- The cluster of queues refines its object in that run. -/
theorem cluster_refines_queue :
    ∃ s, (argvObj (queueProgram readFive 2)).Reach (fifoOf (QueueOk readFive)) s ∧
      s.st = queueAfter.db ∧ s.recv 0 = s.recv 1 := by
  obtain ⟨⟨s, hs, hst, hrecv⟩, -⟩ := cluster_refines (queueProgram readFive 2) inCfgDefault
    (QueueOk readFive) queueAfter queueAfter_reach
  exact ⟨s, hs, hst, hrecv queueAfter_quiescent 0 1⟩

end CrdtRedis
