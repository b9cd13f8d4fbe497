/-
# Crashes of the redo log

What a crash leaves of the redo log of `apps/persistent_kv/pmica.h`.  An entry is committed iff
its sequence number is not zero and at most `committed_seq_num`; the log is sound if every
committed entry holds the number, the key and the value of one SET.

* `PmOp.events` — the copies and drains of `HuiRpc.Pmica` as events of persistent memory, whose
  parts are the aligned words of the log;
* `LogState enc T d` — the SETs `T` are in the log, the first `d` of them drained;
* `committed_entries_whole` — the log is sound at every crash point of every run, as long as no
  batch reuses an entry and `committed_seq_num` is below the next sequence number when a batch
  with a SET starts;
* `torn_entry_committed` — with batching, the second batch breaks this.
-/
import HuiRpc.PmicaRefine
import HuiRpc.Lib.Pmem
import HuiRpc.Lib.Runs

namespace HuiRpc

open Pmem Runs

/-! ## The words of the log -/

/-- The words of an entry behind `seq_num`, of 128 bytes in all. -/
def kRedoBodyWords : ℕ := 15

instance : NeZero kRedoBodyWords := ⟨by decide⟩

/-- The words of the log.  Those of the table are left out: no copy to the table touches the
log. -/
inductive LogWord
  | seqNum (idx : ℕ)
  | body (idx : ℕ) (j : Fin kRedoBodyWords)
  | committedSeqNum
  deriving DecidableEq

/-- The entry that a word belongs to. -/
def LogWord.entry : LogWord → Option ℕ
  | seqNum idx => some idx
  | body idx _ => some idx
  | committedSeqNum => none

abbrev LogMem := Pmem.Mem fun _ : LogWord => ℕ

/-- After `pmem_memset_persist` in the constructor. -/
def LogMem.zero : LogMem := ⟨fun _ => 0, []⟩

section Words

variable {K V : Type} (enc : K → V → Fin kRedoBodyWords → ℕ)

/-- The words of the log that a copy writes; `enc` are the words of key, value and padding. -/
def PmWrite.words : PmWrite K V → List ((_ : LogWord) × ℕ)
  | redoEntry idx seqNum key value =>
    ⟨.seqNum idx, seqNum⟩ ::
      (List.finRange kRedoBodyWords).map fun j => ⟨.body idx j, enc key value j⟩
  | committedSeqNum seqNum => [⟨.committedSeqNum, seqNum⟩]
  | slot _ _ _ => []
  | nextExtraBucketIdx _ _ => []

def PmOp.events : PmOp K V → List (Ev fun _ : LogWord => ℕ)
  | nodrain w => [.write (w.words enc)]
  | persist w => Pmem.persist (w.words enc)
  | drain => [.drain]

/-- The events of a map up to now, and the memory after them. -/
def PmicaMap.events (m : PmicaMap K V) : List (Ev fun _ : LogWord => ℕ) :=
  m.trace.flatMap (PmOp.events enc)

def PmicaMap.mem (m : PmicaMap K V) : LogMem := run LogMem.zero (m.events enc)

/-- Where the SET number `n`, counted from zero, is logged. -/
def entryIdx (n : ℕ) : ℕ := (n + 1) % kNumRedoLogEntries

/-- The entry of a SET. -/
def entryOf (n : ℕ) (op : BatchOp K V) : PmWrite K V :=
  .redoEntry (entryIdx n) (n + 1) op.key op.value

variable {enc}

theorem mem_words_entryOf {n : ℕ} {op : BatchOp K V} {w : (_ : LogWord) × ℕ} :
    w ∈ (entryOf n op).words enc ↔
      w = ⟨.seqNum (entryIdx n), n + 1⟩ ∨ ∃ j, w = ⟨.body (entryIdx n) j, enc op.key op.value j⟩ := by
  unfold entryOf PmWrite.words
  simp [eq_comm]

theorem entry_of_mem_words {n : ℕ} {op : BatchOp K V} {w : (_ : LogWord) × ℕ}
    (h : w ∈ (entryOf n op).words enc) : w.1.entry = some (entryIdx n) := by
  rcases mem_words_entryOf.mp h with rfl | ⟨j, rfl⟩
  · rfl
  · rfl

/-- A word of an entry has one value. -/
theorem words_inj {n : ℕ} {op : BatchOp K V} {w w' : (_ : LogWord) × ℕ}
    (h : w ∈ (entryOf n op).words enc) (h' : w' ∈ (entryOf n op).words enc) (heq : w.1 = w'.1) :
    w.2 = w'.2 := by
  rcases mem_words_entryOf.mp h with rfl | ⟨j, rfl⟩
  · rcases mem_words_entryOf.mp h' with rfl | ⟨j', rfl⟩
    · rfl
    · cases heq
  · rcases mem_words_entryOf.mp h' with rfl | ⟨j', rfl⟩
    · cases heq
    · cases heq
      rfl

theorem entryIdx_inj {n n' : ℕ} (hn : n < kNumRedoLogEntries) (hn' : n' < kNumRedoLogEntries)
    (h : entryIdx n = entryIdx n') : n = n' := by
  have h128 : kNumRedoLogEntries = 128 := rfl
  unfold entryIdx at h
  rw [h128] at h hn hn'
  omega

end Words

/-- **The log is sound**: a committed entry is that of one of the SETs `T`, with all its words. -/
def LogSound {K V : Type} (enc : K → V → Fin kRedoBodyWords → ℕ) (T : List (BatchOp K V))
    (img : LogWord → ℕ) : Prop :=
  ∀ idx < kNumRedoLogEntries, img (.seqNum idx) ≠ 0 →
    img (.seqNum idx) ≤ img .committedSeqNum →
    ∃ op, T[img (.seqNum idx) - 1]? = some op ∧ ∀ j, img (.body idx j) = enc op.key op.value j

theorem LogSound.mono {K V : Type} {enc : K → V → Fin kRedoBodyWords → ℕ}
    {T T' : List (BatchOp K V)} {img : LogWord → ℕ} (h : LogSound enc T img) (hT : T <+: T') :
    LogSound enc T' img := by
  intro idx hidx h0 hle
  obtain ⟨op, hop, hbody⟩ := h idx hidx h0 hle
  obtain ⟨rest, rfl⟩ := hT
  refine ⟨op, ?_, hbody⟩
  rw [List.getElem?_append_left (List.getElem?_eq_some_iff.mp hop).1]
  exact hop

/-! ## The state of the log -/

/-- The SETs `T` are in the log, the first `d` of them drained and the others pending. -/
structure LogState {K V : Type} (enc : K → V → Fin kRedoBodyWords → ℕ) (T : List (BatchOp K V))
    (d : ℕ) (m : LogMem) : Prop where
  le : d ≤ T.length
  room : T.length ≤ kNumRedoLogEntries
  stored : ∀ n < d, ∀ op, T[n]? = some op → ∀ w ∈ (entryOf n op).words enc, m.durable w.1 = w.2
  fresh : ∀ idx, m.durable (.seqNum idx) ≠ 0 → ∃ n < d, idx = entryIdx n
  issued : ∀ n, d ≤ n → ∀ op, T[n]? = some op → ∀ w ∈ (entryOf n op).words enc, w ∈ m.pending
  pending : ∀ w ∈ m.pending, w.1 = .committedSeqNum ∨
    ∃ n op, d ≤ n ∧ T[n]? = some op ∧ w ∈ (entryOf n op).words enc

/-- `committed_seq_num` is at most `d`, whatever a crash leaves. -/
def CommitLe (d : ℕ) (m : LogMem) : Prop :=
  m.durable .committedSeqNum ≤ d ∧ ∀ x, ⟨.committedSeqNum, x⟩ ∈ m.pending → x ≤ d

namespace LogState

variable {K V : Type} {enc : K → V → Fin kRedoBodyWords → ℕ} {T : List (BatchOp K V)} {d : ℕ}
  {m : LogMem} {op : BatchOp K V}

theorem zero : LogState enc ([] : List (BatchOp K V)) 0 LogMem.zero where
  le := le_rfl
  room := Nat.zero_le _
  stored := fun n hn => absurd hn n.not_lt_zero
  fresh := fun _ h => absurd rfl h
  issued := fun n _ op h => by simp at h
  pending := fun w h => absurd h List.not_mem_nil

/-- What is pending in the entry of a SET is the SET's own. -/
theorem own_pending (h : LogState enc T d m) {n : ℕ} (hn : n < T.length)
    {w : (_ : LogWord) × ℕ} (hw : w ∈ m.pending) (he : w.1.entry = some (entryIdx n)) :
    d ≤ n ∧ ∃ op, T[n]? = some op ∧ w ∈ (entryOf n op).words enc := by
  rcases h.pending w hw with hc | ⟨n', op, hd, hop, hw'⟩
  · rw [hc] at he
    cases he
  · have hn' : n' < T.length := (List.getElem?_eq_some_iff.mp hop).1
    have hidx : entryIdx n' = entryIdx n :=
      Option.some.inj ((entry_of_mem_words hw').symm.trans he)
    have hnn := entryIdx_inj (lt_of_lt_of_le hn' h.room) (lt_of_lt_of_le hn h.room) hidx
    subst hnn
    exact ⟨hd, op, hop, hw'⟩

/-- **Crash points**: the log is sound if all SETs are drained, or none beyond
`committed_seq_num` counts. -/
theorem sound (h : LogState enc T d m) (hc : CommitLe d m ∨ d = T.length) {img : LogWord → ℕ}
    (himg : Image m img) : LogSound enc T img := by
  intro idx _ h0 hle
  have hdur : img (.seqNum idx) = m.durable (.seqNum idx) := by
    rcases himg (.seqNum idx) with hdur | hpend
    · exact hdur
    · rcases h.pending _ hpend with hne | ⟨n, op, hd, hop, hw⟩
      · cases hne
      · have hlen := (List.getElem?_eq_some_iff.mp hop).1
        rcases hc with hc | rfl
        · -- the entry is pending, so its number is above `d`
          have hcommit : img .committedSeqNum ≤ d := by
            rcases himg .committedSeqNum with hcd | hcp
            · rw [hcd]
              exact hc.1
            · exact hc.2 _ hcp
          have hnum : img (.seqNum idx) = n + 1 := by
            rcases mem_words_entryOf.mp hw with heq | ⟨j, heq⟩
            · exact eq_of_heq (Sigma.mk.inj heq).2
            · cases (Sigma.mk.inj heq).1
          omega
        · omega
  obtain ⟨n, hn, rfl⟩ := h.fresh idx (hdur ▸ h0)
  have hlen : n < T.length := lt_of_lt_of_le hn h.le
  have hop : T[n]? = some T[n] := List.getElem?_eq_getElem hlen
  have hstored := h.stored n hn T[n] hop
  have hnum : img (.seqNum (entryIdx n)) = n + 1 :=
    hdur.trans (hstored ⟨_, n + 1⟩ (mem_words_entryOf.mpr (Or.inl rfl)))
  refine ⟨T[n], by rw [hnum]; exact hop, fun j => ?_⟩
  rw [himg.eq_durable]
  · exact hstored ⟨_, _⟩ (mem_words_entryOf.mpr (Or.inr ⟨j, rfl⟩))
  · -- nothing is pending in an entry that is drained
    intro w hw heq
    have hown := h.own_pending hlen hw (by rw [heq]; rfl)
    omega

/-- A SET is logged. -/
theorem write_entry (h : LogState enc T d m) (hroom : T.length < kNumRedoLogEntries) :
    LogState enc (T ++ [op]) d (step m (.write ((entryOf T.length op).words enc))) where
  le := by
    rw [List.length_append]
    exact Nat.le_add_right_of_le h.le
  room := by
    rw [List.length_append]
    exact hroom
  stored := by
    intro n hn o ho
    rw [List.getElem?_append_left (lt_of_lt_of_le hn h.le)] at ho
    exact h.stored n hn o ho
  fresh := h.fresh
  issued := by
    intro n hd o ho w hw
    show w ∈ m.pending ++ _
    rcases lt_or_ge n T.length with hn | hn
    · rw [List.getElem?_append_left hn] at ho
      exact List.mem_append_left _ (h.issued n hd o ho w hw)
    · have hlen := (List.getElem?_eq_some_iff.mp ho).1
      rw [List.length_append, List.length_singleton] at hlen
      obtain rfl : n = T.length := by omega
      rw [List.getElem?_concat_length] at ho
      rw [← Option.some.inj ho] at hw
      exact List.mem_append_right _ hw
  pending := by
    intro w hw
    rcases List.mem_append.mp hw with hw | hw
    · rcases h.pending w hw with hc | ⟨n, o, hd, ho, hw⟩
      · exact Or.inl hc
      · refine Or.inr ⟨n, o, hd, ?_, hw⟩
        rw [List.getElem?_append_left (List.getElem?_eq_some_iff.mp ho).1]
        exact ho
    · exact Or.inr ⟨T.length, op, h.le, by simp, hw⟩

/-- `committed_seq_num` is written. -/
theorem write_commit (h : LogState enc T d m) (x : ℕ) :
    LogState enc T d (step m (.write [⟨.committedSeqNum, x⟩])) where
  le := h.le
  room := h.room
  stored := h.stored
  fresh := h.fresh
  issued := fun n hd op hop w hw => List.mem_append_left _ (h.issued n hd op hop w hw)
  pending := by
    intro w hw
    rcases List.mem_append.mp hw with hw | hw
    · exact h.pending w hw
    · rw [List.mem_singleton.mp hw]
      exact Or.inl rfl

/-- A drain. -/
theorem drain (h : LogState enc T d m) : LogState enc T T.length (step m .drain) where
  le := le_rfl
  room := h.room
  stored := by
    intro n hn op hop w hw
    show flush m.durable m.pending w.1 = w.2
    rcases lt_or_ge n d with hd | hd
    · rw [flush_of_notMem, h.stored n hd op hop w hw]
      intro w' hw' heq
      have hown := h.own_pending hn hw' (by rw [heq]; exact entry_of_mem_words hw)
      omega
    · -- the word is pending, and every write to it that is pending has its value
      have hmem := flush_mem (f := m.durable) (h.issued n hd op hop w hw)
      obtain ⟨-, op', hop', hw'⟩ := h.own_pending hn hmem
        (show w.1.entry = _ from entry_of_mem_words hw)
      obtain rfl : op' = op := Option.some.inj (hop'.symm.trans hop)
      exact words_inj hw' hw rfl
  fresh := by
    intro idx hne
    by_cases hmem : ∀ w ∈ m.pending, w.1 ≠ LogWord.seqNum idx
    · obtain ⟨n, hn, hidx⟩ := h.fresh idx (flush_of_notMem (f := m.durable) hmem ▸ hne)
      exact ⟨n, lt_of_lt_of_le hn h.le, hidx⟩
    · push Not at hmem
      obtain ⟨w, hw, hidx⟩ := hmem
      rcases h.pending w hw with hc | ⟨n, op, hd, hop, hwords⟩
      · cases hc.symm.trans hidx
      · refine ⟨n, (List.getElem?_eq_some_iff.mp hop).1, ?_⟩
        have hentry := entry_of_mem_words hwords
        rw [hidx] at hentry
        exact Option.some.inj hentry
  issued := by
    intro n hn op hop
    exact absurd (List.getElem?_eq_some_iff.mp hop).1 (not_lt.mpr hn)
  pending := fun w hw => absurd hw List.not_mem_nil

end LogState

namespace CommitLe

variable {d d' : ℕ} {m : LogMem}

theorem mono (h : CommitLe d m) (hd : d ≤ d') : CommitLe d' m :=
  ⟨h.1.trans hd, fun x hx => (h.2 x hx).trans hd⟩

theorem drain (h : CommitLe d m) : CommitLe d (step m .drain) := by
  refine ⟨?_, fun x hx => absurd hx List.not_mem_nil⟩
  show flush m.durable m.pending .committedSeqNum ≤ d
  by_cases hmem : ∀ w ∈ m.pending, w.1 ≠ LogWord.committedSeqNum
  · rw [flush_of_notMem hmem]
    exact h.1
  · push Not at hmem
    obtain ⟨⟨a, x⟩, hw, rfl⟩ := hmem
    exact h.2 _ (flush_mem hw)

theorem write_entry {K V : Type} {enc : K → V → Fin kRedoBodyWords → ℕ} {n : ℕ}
    {op : BatchOp K V} (h : CommitLe d m) :
    CommitLe d (step m (.write ((entryOf n op).words enc))) := by
  refine ⟨h.1, fun x hx => ?_⟩
  rcases List.mem_append.mp hx with hx | hx
  · exact h.2 x hx
  · cases entry_of_mem_words hx

theorem write_commit (h : CommitLe d m) :
    CommitLe d (step m (.write [⟨.committedSeqNum, d⟩])) := by
  refine ⟨h.1, fun x hx => ?_⟩
  rcases List.mem_append.mp hx with hx | hx
  · exact h.2 x hx
  · exact (eq_of_heq (Sigma.mk.inj (List.mem_singleton.mp hx)).2).le

end CommitLe

/-! ## Logging -/

section Logging

variable {K V : Type} (enc : K → V → Fin kRedoBodyWords → ℕ)

/-- Every crash leaves a sound log. -/
def CrashSound (T : List (BatchOp K V)) (m : LogMem) : Prop :=
  ∀ img, Image m img → LogSound enc T img

/-- Between batches: all SETs are drained. -/
def Drained (T : List (BatchOp K V)) (m : LogMem) : Prop :=
  LogState enc T T.length m ∧ m.pending = []

/-- In the first loop of a batch: nothing that is not drained counts as committed, and without
batching everything is drained. -/
def Logging (opts : PmicaOpts) (T : List (BatchOp K V)) (m : LogMem) : Prop :=
  ∃ d, LogState enc T d m ∧ CommitLe d m ∧
    (opts.redoBatch = false → d = T.length ∧ m.pending = [])

variable {enc} {T Tall : List (BatchOp K V)} {opts : PmicaOpts} {op : BatchOp K V} {m : LogMem}

theorem LogState.crashSound {d : ℕ} (h : LogState enc T d m) (hc : CommitLe d m ∨ d = T.length)
    (hT : T <+: Tall) : CrashSound enc Tall m :=
  fun _ himg => (h.sound hc himg).mono hT

theorem Logging.crashSound (h : Logging enc opts T m) (hT : T <+: Tall) :
    CrashSound enc Tall m := by
  obtain ⟨d, hstate, hc, -⟩ := h
  exact hstate.crashSound (Or.inl hc) hT

theorem Drained.crashSound (h : Drained enc T m) (hT : T <+: Tall) : CrashSound enc Tall m :=
  h.1.crashSound (Or.inr rfl) hT

/-- The drain before entries are reused. -/
theorem Logging.triple_drain (hT : T <+: Tall) :
    Triple (CrashSound enc Tall) (Logging enc opts T) [.drain] (Logging enc opts T) := by
  refine Triple.single (fun m h => h.crashSound hT) ?_ (fun m h => h.crashSound hT)
  rintro m ⟨d, hstate, hc, -⟩
  exact ⟨T.length, hstate.drain, hc.drain.mono hstate.le, fun _ => ⟨rfl, rfl⟩⟩

/-- A SET with batching: the entry stays pending. -/
theorem Logging.triple_nodrain (hT : T ++ [op] <+: Tall) (hroom : T.length < kNumRedoLogEntries)
    (hbatch : opts.redoBatch = true) :
    Triple (CrashSound enc Tall) (Logging enc opts T) [.write ((entryOf T.length op).words enc)]
      (Logging enc opts (T ++ [op])) := by
  have hT' : T <+: Tall := (List.prefix_append _ _).trans hT
  refine Triple.single (fun m h => h.crashSound hT') ?_ (fun m h => h.crashSound hT)
  rintro m ⟨d, hstate, hc, -⟩
  refine ⟨d, hstate.write_entry hroom, hc.write_entry, fun hfalse => ?_⟩
  rw [hbatch] at hfalse
  cases hfalse

/-- A SET without batching: the entry is drained, and then committed. -/
theorem Logging.triple_persist (hT : T ++ [op] <+: Tall) (hroom : T.length < kNumRedoLogEntries)
    (hbatch : opts.redoBatch = false) :
    Triple (CrashSound enc Tall) (Logging enc opts T)
      (persist ((entryOf T.length op).words enc)
        ++ persist [⟨LogWord.committedSeqNum, T.length + 1⟩])
      (Logging enc opts (T ++ [op])) := by
  have hT' : T <+: Tall := (List.prefix_append _ _).trans hT
  have hlen : (T ++ [op]).length = T.length + 1 := List.length_append
  refine Triple.seq
    (Q := fun m => LogState enc (T ++ [op]) (T ++ [op]).length m ∧ CommitLe T.length m)
    (Triple.persist
      (Q := fun m => LogState enc (T ++ [op]) T.length m ∧ CommitLe T.length m)
      (fun m h => h.crashSound hT') ?_ (fun m h => h.1.crashSound (Or.inl h.2) hT) ?_
      (fun m h => h.1.crashSound (Or.inr rfl) hT))
    (Triple.persist
      (Q := fun m => LogState enc (T ++ [op]) (T ++ [op]).length m ∧ CommitLe (T.length + 1) m)
      (fun m h => h.1.crashSound (Or.inr rfl) hT) ?_
      (fun m h => h.1.crashSound (Or.inr rfl) hT) ?_ (fun m h => h.crashSound hT))
  · rintro m ⟨d, hstate, hc, hoff⟩
    obtain ⟨rfl, -⟩ := hoff hbatch
    exact ⟨hstate.write_entry hroom, hc.write_entry⟩
  · rintro m ⟨hstate, hc⟩
    exact ⟨hstate.drain, hc.drain⟩
  · rintro m ⟨hstate, hc⟩
    exact ⟨hstate.write_commit _, (hc.mono (Nat.le_succ _)).write_commit⟩
  · rintro m ⟨hstate, hc⟩
    exact ⟨(T ++ [op]).length, hstate.drain, hlen ▸ hc.drain, fun _ => ⟨rfl, rfl⟩⟩

/-- The commit of a batch. -/
theorem Logging.triple_commit (hT : T <+: Tall) (x : ℕ) :
    Triple (CrashSound enc Tall) (Logging enc opts T)
      (.drain :: persist [⟨LogWord.committedSeqNum, x⟩]) (Drained enc T) := by
  show Triple _ _ ([.drain] ++ persist _) _
  refine Triple.seq (Q := LogState enc T T.length)
    (Triple.single (fun m h => h.crashSound hT) ?_ (fun m h => h.crashSound (Or.inr rfl) hT))
    (Triple.persist (Q := LogState enc T T.length) (fun m h => h.crashSound (Or.inr rfl) hT)
      (fun m h => h.write_commit x) (fun m h => h.crashSound (Or.inr rfl) hT)
      (fun m h => ⟨h.drain, rfl⟩) (fun m h => h.crashSound hT))
  rintro m ⟨d, hstate, -, -⟩
  exact hstate.drain

end Logging

/-! ## Batches -/

namespace PmicaMap

variable {K V : Type} {enc : K → V → Fin kRedoBodyWords → ℕ} {T Tall : List (BatchOp K V)}
  {opts : PmicaOpts} {m : PmicaMap K V} {P Q : LogMem → Prop}

/-- The map has logged the SETs `T`, with a sound log at every crash point, and its memory is in
a state of `P`. -/
structure Logged (enc : K → V → Fin kRedoBodyWords → ℕ) (Tall T : List (BatchOp K V))
    (P : LogMem → Prop) (m : PmicaMap K V) : Prop where
  safe : ∀ pre, pre <+: m.events enc → CrashSound enc Tall (run LogMem.zero pre)
  cur : m.curSequenceNumber = T.length + 1
  state : P (m.mem enc)

theorem Logged.mono (h : Logged enc T T P m) (hT : T <+: Tall) : Logged enc Tall T P m :=
  ⟨fun pre hpre img himg => (h.safe pre hpre img himg).mono hT, h.cur, h.state⟩

theorem Logged.imp (h : Logged enc Tall T P m) (hPQ : ∀ x, P x → Q x) : Logged enc Tall T Q m :=
  ⟨h.safe, h.cur, hPQ _ h.state⟩

/-- **Writes are issued.** -/
theorem Logged.emit {m' : PmicaMap K V} {T' : List (BatchOp K V)} {ops : List (PmOp K V)}
    (h : Logged enc Tall T P m)
    (ht : Triple (CrashSound enc Tall) P (ops.flatMap (PmOp.events enc)) Q)
    (htrace : m'.trace = m.trace ++ ops) (hcur : m'.curSequenceNumber = T'.length + 1) :
    Logged enc Tall T' Q m' := by
  have hbefore : Triple (CrashSound enc Tall) (· = LogMem.zero) (m.events enc) P := by
    rintro x rfl
    exact ⟨h.safe, h.state⟩
  have hevents : m'.events enc = m.events enc ++ ops.flatMap (PmOp.events enc) := by
    unfold events
    rw [htrace, List.flatMap_append]
  obtain ⟨hsafe, hstate⟩ := (hbefore.seq ht) LogMem.zero rfl
  rw [← hevents] at hsafe hstate
  exact ⟨hsafe, hcur, hstate⟩

/-- What is issued for a SET. -/
def logOps (opts : PmicaOpts) (seq : ℕ) (key : K) (value : V) : List (PmOp K V) :=
  let entry := PmWrite.redoEntry (seq % kNumRedoLogEntries) seq key value
  (if seq % kNumRedoLogEntries = 0 then [.drain] else []) ++
    if opts.redoBatch then [.nodrain entry]
    else [.persist entry, .persist (.committedSeqNum seq)]

theorem logSet_eq (m : PmicaMap K V) (key : K) (value : V) :
    m.logSet opts key value
      = ⟨m.table, m.curSequenceNumber + 1,
          m.trace ++ logOps opts m.curSequenceNumber key value⟩ := by
  unfold logSet logOps
  dsimp only
  split_ifs <;> simp [emit]

/-- **One SET is logged.** -/
theorem Logged.logSet {op : BatchOp K V} (h : Logged enc Tall T (Logging enc opts T) m)
    (hT : T ++ [op] <+: Tall) (hroom : T.length < kNumRedoLogEntries) :
    Logged enc Tall (T ++ [op]) (Logging enc opts (T ++ [op])) (m.logSet opts op.key op.value) := by
  have hT' : T <+: Tall := (List.prefix_append _ _).trans hT
  rw [logSet_eq]
  refine h.emit ?_ rfl ?_
  · unfold logOps
    rw [h.cur, List.flatMap_append]
    refine Triple.seq (Q := Logging enc opts T) ?_ ?_
    · split_ifs
      · exact Logging.triple_drain hT'
      · exact Triple.nil fun x hx => hx.crashSound hT'
    · split_ifs with hbatch
      · exact Logging.triple_nodrain hT hroom hbatch
      · exact Logging.triple_persist hT hroom (Bool.eq_false_iff.mpr hbatch)
  · rw [h.cur, List.length_append]
    rfl

/-- The SETs of a batch. -/
def sets (ops : List (BatchOp K V)) : List (BatchOp K V) := ops.filter (·.isSet)

/-- **The first loop.** -/
theorem Logged.logSets {ops : List (BatchOp K V)} (h : Logged enc Tall T (Logging enc opts T) m)
    (hT : T ++ sets ops <+: Tall) (hroom : (T ++ sets ops).length ≤ kNumRedoLogEntries) :
    Logged enc Tall (T ++ sets ops) (Logging enc opts (T ++ sets ops)) (m.logSets opts ops) := by
  induction ops generalizing T m with
  | nil =>
    rw [show sets ([] : List (BatchOp K V)) = [] from rfl, List.append_nil]
    exact h
  | cons op ops ih =>
    show Logged enc Tall _ _ (PmicaMap.logSets opts (if op.isSet then _ else m) ops)
    by_cases hset : op.isSet
    · have hcons : sets (op :: ops) = op :: sets ops := List.filter_cons_of_pos hset
      rw [hcons, List.append_cons] at hT hroom ⊢
      rw [if_pos hset]
      have hlt : T.length < kNumRedoLogEntries := by
        rw [List.length_append, List.length_append, List.length_singleton] at hroom
        omega
      exact ih (h.logSet ((List.prefix_append _ _).trans hT) hlt) hT hroom
    · have hcons : sets (op :: ops) = sets ops := List.filter_cons_of_neg hset
      rw [hcons] at hT hroom ⊢
      rw [if_neg hset]
      exact ih h hT hroom

theorem sets_eq_nil {ops : List (BatchOp K V)} (h : ¬ ops.any (·.isSet) = true) : sets ops = [] := by
  unfold sets
  simpa using h

/-- Without a SET nothing is logged. -/
theorem logSets_of_gets {ops : List (BatchOp K V)} (h : ¬ ops.any (·.isSet) = true) :
    m.logSets opts ops = m := by
  induction ops with
  | nil => rfl
  | cons op ops ih =>
    rw [List.any_cons, Bool.or_eq_true, not_or] at h
    show PmicaMap.logSets opts (if op.isSet then _ else m) ops = m
    rw [if_neg h.1]
    exact ih h.2

/-- **The log part of a batch.** -/
theorem Logged.log {ops : List (BatchOp K V)} (h : Logged enc T T (Drained enc T) m)
    (hc : ops.any (·.isSet) = true → (m.mem enc).durable .committedSeqNum < m.curSequenceNumber ∧
      m.curSequenceNumber + (sets ops).length ≤ kNumRedoLogEntries + 1) :
    Logged enc (T ++ sets ops) (T ++ sets ops) (Drained enc (T ++ sets ops))
      ((m.logSets opts ops).commit opts ops) := by
  unfold commit
  by_cases hany : ops.any (·.isSet) = true
  · obtain ⟨hlt, hroom⟩ := hc hany
    rw [h.cur] at hlt hroom
    obtain ⟨hstate, hpending⟩ := h.state
    have hcommit : CommitLe T.length (m.mem enc) := by
      refine ⟨Nat.le_of_lt_succ hlt, ?_⟩
      simp [hpending]
    have hstart : Logged enc (T ++ sets ops) T (Logging enc opts T) m :=
      ⟨(h.mono (List.prefix_append _ _)).safe, h.cur, T.length, hstate, hcommit,
        fun _ => ⟨rfl, hpending⟩⟩
    have hlogged := hstart.logSets (List.prefix_refl _) (by rw [List.length_append]; omega)
    split_ifs with hbatch
    · refine hlogged.emit ?_ rfl hlogged.cur
      exact Logging.triple_commit (List.prefix_refl _) _
    · refine hlogged.imp fun x hx => ?_
      obtain ⟨d, hstate, -, hoff⟩ := hx
      obtain ⟨rfl, hnil⟩ := hoff (Bool.eq_false_iff.mpr fun hon => hbatch ⟨hon, hany⟩)
      exact ⟨hstate, hnil⟩
  · rw [if_neg fun hb => hany hb.2, logSets_of_gets hany, sets_eq_nil hany, List.append_nil]
    exact h

end PmicaMap

/-! ## The table part of a batch -/

/-- Copies to the table. -/
def PmWrite.OnTable {K V : Type} : PmWrite K V → Prop
  | redoEntry _ _ _ _ => False
  | committedSeqNum _ => False
  | slot _ _ _ => True
  | nextExtraBucketIdx _ _ => True

def PmOp.OnTable {K V : Type} : PmOp K V → Prop
  | nodrain w => w.OnTable
  | persist w => w.OnTable
  | drain => False

theorem PmWrite.OnTable.words_eq {K V : Type} {enc : K → V → Fin kRedoBodyWords → ℕ}
    {w : PmWrite K V} (h : w.OnTable) : w.words enc = [] := by
  cases w with
  | redoEntry => exact h.elim
  | committedSeqNum => exact h.elim
  | slot => rfl
  | nextExtraBucketIdx => rfl

/-- They do not touch the log. -/
theorem PmOp.OnTable.idle {K V : Type} (enc : K → V → Fin kRedoBodyWords → ℕ)
    {ops : List (PmOp K V)} (h : ∀ op ∈ ops, op.OnTable) :
    ∀ e ∈ ops.flatMap (PmOp.events enc), e = .write [] ∨ e = .drain := by
  intro e he
  obtain ⟨op, hop, he⟩ := List.mem_flatMap.mp he
  cases op with
  | nodrain w =>
    rw [PmOp.events, (h _ hop).words_eq, List.mem_singleton] at he
    exact Or.inl he
  | persist w =>
    rw [PmOp.events, (h _ hop).words_eq, Pmem.persist, List.mem_pair] at he
    exact he
  | drain => exact (h _ hop).elim

namespace PmicaTable

open Chains

variable {K V : Type} {c : PmicaConf K V} {t : PmicaTable K V} {tail : ℕ → List ℕ}

theorem putSlot_onTable (opts : PmicaOpts) (t : PmicaTable K V) (b : ℕ) (i : Fin kSlotsPerBucket)
    (s : Slot K V) : ∀ op ∈ (t.putSlot opts b i s).2, op.OnTable := by
  intro op hop
  rw [putSlot, List.mem_singleton] at hop
  subst hop
  split_ifs <;> exact trivial

variable [DecidableEq K]

/-- A search for an empty slot ends, in any chain. -/
theorem ChainsOk.getEmpty (h : ChainsOk c t tail) (keyHash : ℕ) :
    ∃ t' empty ops tail', t.getEmpty c c.numTotalBuckets (c.bucketIndex keyHash)
        = some (t', empty, ops) ∧ ChainsOk c t' tail' ∧ ∀ op ∈ ops, op.OnTable := by
  have hj := c.bucketIndex_lt keyHash
  rcases getEmpty_spec (h.family.path _ hj) (h.family.length_le hj) with ⟨b, i, hres, -, -⟩ | hres
  · exact ⟨t, _, _, tail, hres, h, by simp⟩
  · rw [hres]
    unfold growChain
    cases halloc : t.allocExtraBucket (tip _ (tail (c.bucketIndex keyHash))) with
    | none => exact ⟨t, _, _, tail, rfl, h, by simp⟩
    | some x =>
      refine ⟨_, _, _, _, rfl, h.allocExtraBucket hj halloc, ?_⟩
      intro op hop
      rw [List.mem_singleton.mp hop]
      exact trivial

/-- **`set_nodrain`** returns, whatever the hash, and writes to the table only. -/
theorem ChainsOk.setNodrain (h : ChainsOk c t tail) (opts : PmicaOpts) (keyHash : ℕ) (k : K)
    (v : V) :
    ∃ t' ok ops tail', t.setNodrain c opts keyHash k v = some (t', ok, ops) ∧
      ChainsOk c t' tail' ∧ ∀ op ∈ ops, op.OnTable := by
  have hj := c.bucketIndex_lt keyHash
  unfold PmicaTable.setNodrain
  rcases find_spec (k := k) (h.family.path _ hj) (h.family.length_le hj) with
    ⟨hres, -⟩ | ⟨b, i, hres, -, -⟩
  · obtain ⟨t', empty, ops, tail', hempty, h', hops⟩ := h.getEmpty keyHash
    rw [hres]
    simp only [hempty]
    rcases empty with - | ⟨b, i⟩
    · exact ⟨t', false, ops, tail', rfl, h', hops⟩
    · refine ⟨_, true, _, tail', rfl, h'.setSlot b i _, fun op hop => ?_⟩
      rcases List.mem_append.mp hop with hop | hop
      · exact hops op hop
      · exact putSlot_onTable opts t' b i _ op hop
  · rw [hres]
    exact ⟨_, true, _, tail, rfl, h.setSlot b i _, putSlot_onTable opts t b i _⟩

theorem ChainsOk.get (h : ChainsOk c t tail) (keyHash : ℕ) (k : K) :
    ∃ res, t.get c keyHash k = some res := by
  have hj := c.bucketIndex_lt keyHash
  unfold PmicaTable.get
  rcases find_spec (k := k) (h.family.path _ hj) (h.family.length_le hj) with
    ⟨hres, -⟩ | ⟨b, i, hres, -, -⟩
  · exact ⟨_, by rw [hres]; rfl⟩
  · exact ⟨_, by rw [hres]; rfl⟩

end PmicaTable

namespace PmicaMap

variable {K V : Type} {c : PmicaConf K V}
  {enc : K → V → Fin kRedoBodyWords → ℕ} {T : List (BatchOp K V)} {opts : PmicaOpts}
  {m m' : PmicaMap K V} {bs : List (PmicaOpts × List (BatchOp K V))}

/-- `m'` comes from `m` by operations on the table, and the chains are in order. -/
structure TableMove (c : PmicaConf K V) (m m' : PmicaMap K V) : Prop where
  chains : ∃ tail, PmicaTable.ChainsOk c m'.table tail
  cur : m'.curSequenceNumber = m.curSequenceNumber
  trace : ∃ ops, m'.trace = m.trace ++ ops ∧ ∀ op ∈ ops, op.OnTable

theorem TableMove.trans {m'' : PmicaMap K V} (h : TableMove c m m') (h' : TableMove c m' m'') :
    TableMove c m m'' := by
  obtain ⟨ops, htrace, hops⟩ := h.trace
  obtain ⟨ops', htrace', hops'⟩ := h'.trace
  refine ⟨h'.chains, h'.cur.trans h.cur, ops ++ ops', ?_, fun op hop => ?_⟩
  · rw [htrace', htrace, List.append_assoc]
  · exact (List.mem_append.mp hop).elim (hops op) (hops' op)

/-- Copies to the table leave the log. -/
theorem Logged.tableMove (h : Logged enc T T (Drained enc T) m) (hmove : TableMove c m m') :
    Logged enc T T (Drained enc T) m' := by
  obtain ⟨ops, htrace, hops⟩ := hmove.trace
  refine h.emit ?_ htrace (hmove.cur.trans h.cur)
  have hidle := PmOp.OnTable.idle enc hops
  intro x hx
  refine ⟨fun pre hpre => ?_, ?_⟩
  · rw [run_idle hx.2 fun e he => hidle e (hpre.subset he)]
    exact hx.crashSound (List.prefix_refl _)
  · rwa [run_idle hx.2 hidle]

variable [DecidableEq K]

/-- An operation of the second loop returns. -/
theorem doOp_move (h : ∃ tail, PmicaTable.ChainsOk c m.table tail) (opts : PmicaOpts)
    (op : BatchOp K V) :
    ∃ m' r, m.doOp c opts op = some (m', r) ∧ TableMove c m m' := by
  obtain ⟨tail, h⟩ := h
  unfold doOp
  split_ifs
  · obtain ⟨t', ok, ops, tail', hset, h', hops⟩ := h.setNodrain opts op.keyHash op.key op.value
    rw [hset]
    exact ⟨_, _, rfl, ⟨tail', h'⟩, rfl, ops, rfl, hops⟩
  · obtain ⟨res, hget⟩ := h.get op.keyHash op.key
    rw [hget]
    exact ⟨m, _, rfl, ⟨tail, h⟩, rfl, [], (List.append_nil _).symm, by simp⟩

/-- **The second loop** returns. -/
theorem doOps_move (h : ∃ tail, PmicaTable.ChainsOk c m.table tail) (opts : PmicaOpts)
    (ops : List (BatchOp K V)) :
    ∃ m' rs, m.doOps c opts ops = some (m', rs) ∧ TableMove c m m' := by
  induction ops generalizing m with
  | nil => exact ⟨m, [], rfl, h, rfl, [], (List.append_nil _).symm, by simp⟩
  | cons op ops ih =>
    obtain ⟨m1, r, hop, hmove⟩ := doOp_move h opts op
    obtain ⟨m', rs, hops, hmove'⟩ := ih hmove.chains
    refine ⟨m', r :: rs, ?_, hmove.trans hmove'⟩
    show (m.doOp c opts op).bind _ = _
    rw [hop]
    show (m1.doOps c opts ops).bind _ = _
    rw [hops, Option.bind_some]

/-! ## Runs -/

/-- One call of `batch_op_drain_helper`. -/
def batchStep (c : PmicaConf K V) (m : PmicaMap K V) (b : PmicaOpts × List (BatchOp K V)) :
    Option (PmicaMap K V) :=
  (m.batchOpDrainHelper c b.1 b.2).map Prod.fst

/-- Before a batch with a SET: `committed_seq_num` is below the next sequence number, and the
numbers of the batch do not come back to an entry that was used. -/
def LogFits (enc : K → V → Fin kRedoBodyWords → ℕ) (m : PmicaMap K V)
    (b : PmicaOpts × List (BatchOp K V)) : Prop :=
  b.2.any (·.isSet) = true → (m.mem enc).durable .committedSeqNum < m.curSequenceNumber ∧
    m.curSequenceNumber + (sets b.2).length ≤ kNumRedoLogEntries + 1

/-- A batch returns. -/
theorem batchStep_move (h : ∃ tail, PmicaTable.ChainsOk c m.table tail)
    (b : PmicaOpts × List (BatchOp K V)) :
    ∃ m', batchStep c m b = some m' ∧ TableMove c ((m.logSets b.1 b.2).commit b.1 b.2) m' := by
  obtain ⟨m', rs, hops, hmove⟩ := doOps_move (m := (m.logSets b.1 b.2).commit b.1 b.2)
    (by rwa [commit_table, logSets_table]) b.1 b.2
  exact ⟨m', congrArg (Option.map Prod.fst) hops, hmove⟩

/-- What holds after every call. -/
theorem run_logged (h : Run (LogFits enc) (batchStep c) (init c) bs m) :
    (∃ tail, PmicaTable.ChainsOk c m.table tail) ∧
      Logged enc (bs.flatMap (sets ·.2)) (bs.flatMap (sets ·.2))
        (Drained enc (bs.flatMap (sets ·.2))) m := by
  induction h with
  | nil =>
    refine ⟨⟨_, PmicaTable.init_chainsOk c⟩, ?_, rfl, LogState.zero, rfl⟩
    intro pre hpre
    rw [List.prefix_nil.mp hpre]
    exact LogState.zero.crashSound (Or.inr rfl) (List.prefix_refl _)
  | @snoc bs m b m' _ hg hs ih =>
    obtain ⟨hchains, hlogged⟩ := ih
    obtain ⟨m'', hstep, hmove⟩ := batchStep_move hchains b
    obtain rfl : m'' = m' := Option.some.inj (hstep.symm.trans hs)
    have hflat : (bs ++ [b]).flatMap (sets ·.2) = bs.flatMap (sets ·.2) ++ sets b.2 := by
      rw [List.flatMap_append, List.flatMap_singleton]
    rw [hflat]
    exact ⟨hmove.chains, (hlogged.log hg).tableMove hmove⟩

/-- **Committed entries are whole.**  In every run of batches that start with a fitting log, with
batching or without, every crash point leaves a sound log; and every further batch returns. -/
theorem committed_entries_whole (h : Run (LogFits enc) (batchStep c) (init c) bs m) :
    (∀ pre, pre <+: m.events enc → ∀ img, Image (run LogMem.zero pre) img →
      LogSound enc (bs.flatMap (sets ·.2)) img) ∧
    ∀ b, ∃ m', batchStep c m b = some m' := by
  obtain ⟨hchains, hlogged⟩ := run_logged h
  refine ⟨hlogged.safe, fun b => ?_⟩
  obtain ⟨m', hstep, -⟩ := batchStep_move hchains b
  exact ⟨m', hstep⟩

instance (enc : K → V → Fin kRedoBodyWords → ℕ) (m : PmicaMap K V)
    (b : PmicaOpts × List (BatchOp K V)) : Decidable (LogFits enc m b) :=
  inferInstanceAs (Decidable (_ → _))

/-- A key in the first word of the body and a value in the second. -/
def sampleEnc (key value : ℕ) (j : Fin kRedoBodyWords) : ℕ :=
  if j = 0 then key else if j = 1 then value else 0

/-- A SET alone in a batch. -/
def sampleSet (redoBatch : Bool) (key : ℕ) : PmicaOpts × List (BatchOp ℕ ℕ) :=
  (⟨redoBatch, true⟩, [⟨true, key, key, 10 * key⟩])

/-- Without batching the log keeps fitting. -/
theorem committed_entries_whole_sampleSet :
    ∃ m, Run (LogFits sampleEnc) (batchStep sampleConf) (init sampleConf)
        [sampleSet false 1, sampleSet false 2, sampleSet true 3] m ∧
      ∀ pre, pre <+: m.events sampleEnc → ∀ img, Image (run LogMem.zero pre) img →
        LogSound sampleEnc
          ([sampleSet false 1, sampleSet false 2, sampleSet true 3].flatMap (sets ·.2)) img := by
  have hexec : (exec (LogFits sampleEnc) (batchStep sampleConf) (init sampleConf)
      [sampleSet false 1, sampleSet false 2, sampleSet true 3]).isSome = true := by
    decide +kernel
  obtain ⟨m, hm⟩ := Option.isSome_iff_exists.mp hexec
  exact ⟨m, run_of_exec hm, (committed_entries_whole (run_of_exec hm)).1⟩

/-- **A torn entry counts as committed.**  With batching, `committed_seq_num` is the number of the
next SET after a batch; when the sequence number of that SET reaches the medium before its key
does, the entry is committed and torn. -/
theorem torn_entry_committed :
    ∃ m pre img, Run (fun _ _ => True) (batchStep sampleConf) (init sampleConf)
        [sampleSet true 1, sampleSet true 2] m ∧
      pre <+: m.events sampleEnc ∧ Image (run LogMem.zero pre) img ∧
      ¬ LogSound sampleEnc ([sampleSet true 1, sampleSet true 2].flatMap (sets ·.2)) img := by
  -- the crash is right behind the copy of the second entry
  have hexec : (exec (fun _ _ => True) (batchStep sampleConf) (init sampleConf)
      [sampleSet true 1, sampleSet true 2]).map (fun m =>
        let x := run LogMem.zero ((m.events sampleEnc).take 6)
        (decide (⟨.seqNum 2, 2⟩ ∈ x.pending), x.durable .committedSeqNum, x.durable (.body 2 0)))
      = some (true, 2, 0) := by
    decide +kernel
  obtain ⟨m, hm, hval⟩ := Option.map_eq_some_iff.mp hexec
  obtain ⟨hmem, hrest⟩ := Prod.mk.inj hval
  obtain ⟨hcommit, hbody⟩ := Prod.mk.inj hrest
  refine ⟨m, (m.events sampleEnc).take 6, _, run_of_exec hm, List.take_prefix _ _,
    image_update (of_decide_eq_true hmem), fun hsound => ?_⟩
  obtain ⟨op, hop, hwords⟩ := hsound 2 (by decide) (by simp) (by simp [hcommit])
  have hkey := hwords 0
  rw [Function.update_of_ne (by decide), hbody] at hkey
  obtain rfl : (sampleSet true 2).2.head (by decide) = op := Option.some.inj hop
  exact absurd hkey (by decide)

end PmicaMap

end HuiRpc
