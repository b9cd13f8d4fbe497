/-
# The protocol of one slot

What both sides know about one RPC, and how the packets in flight relate to it.  An RPC with
`N` request and `M` response packets makes the client send the packets

    P 0, …, P (N - 1)      request packets        P (N - 1 + j)   the RFR for response j

and the server answers `P k` by `Q k`: a credit return for every request packet but the last,
and the response packets from then on.  The invariant `Core` says that the channels hold
segments of these two sequences: with `s` packets received by the server, `q` sent by it and
`c` processed by the client, `P s, …, P (num_tx_ - 1)` and `Q c, …, Q (q - 1)` are in flight.

The lemmas of the second part say how a received packet, an answer or a kick moves these
counters.
-/
import HuiRpc.Session

namespace HuiRpc

open Runs

/-! ## The two sequences of packets -/

namespace Trace

variable (E : Env) (t : Trace)

/-- Number of request packets. -/
def N : ℕ := t.req.totalPkt

/-- The response; an empty one as long as there is none. -/
def respMsg : TxMsg := (t.resp.getD default).1

/-- Number of response packets. -/
def M : ℕ := t.respMsg.totalPkt

def reqBuf : MsgBuf := t.req.fill .request t.args

def respBuf : MsgBuf :=
  t.respMsg.fill .response ⟨t.reqBuf.hdr0.reqType, E.srv.remoteSessionNum, t.reqBuf.hdr0.reqNum,
    (t.resp.getD default).2⟩

/-- `P k`. -/
def cliPkt (k : ℕ) : WirePkt :=
  if k < t.N then t.reqBuf.pkts k else ⟨rfrHdr E.cli t.reqBuf.hdr0 (k - t.N + 1), []⟩

/-- `Q k`. -/
def srvPkt (k : ℕ) : WirePkt :=
  if k + 1 < t.N then ⟨crHdr E.srv (t.reqBuf.pkts k).hdr, []⟩ else (t.respBuf E).pkts (k + 1 - t.N)

/-- How many packets the client may send once it has processed `c` of the server's: the
requests only, until the first response packet tells the number of RFRs. -/
def limit (c : ℕ) : ℕ := if t.N ≤ c then t.N + t.M - 1 else t.N

theorem N_pos : 0 < t.N := t.req.pos

theorem M_pos : 0 < t.M := t.respMsg.pos

theorem N_lt : t.N < pkgIndexSize := t.req.lt

theorem M_lt : t.M < pkgIndexSize := t.respMsg.lt

theorem M_of_none (h : t.resp = none) : t.M = 1 := by
  simp only [M, respMsg, h]
  rfl

variable {t}

theorem limit_of_le {c : ℕ} (h : t.N ≤ c) : t.limit c = t.N + t.M - 1 := if_pos h

theorem limit_of_lt {c : ℕ} (h : c < t.N) : t.limit c = t.N := if_neg (by omega)

theorem cliPkt_req {k : ℕ} (hk : k < t.N) : t.cliPkt E k = t.reqBuf.pkts k := if_pos hk

theorem cliPkt_rfr {k : ℕ} (hk : t.N ≤ k) :
    t.cliPkt E k = ⟨rfrHdr E.cli t.reqBuf.hdr0 (k - t.N + 1), []⟩ := if_neg (by omega)

theorem srvPkt_cr {k : ℕ} (hk : k + 1 < t.N) :
    t.srvPkt E k = ⟨crHdr E.srv (t.reqBuf.pkts k).hdr, []⟩ := if_pos hk

theorem srvPkt_resp {k : ℕ} (hk : t.N ≤ k + 1) :
    t.srvPkt E k = (t.respBuf E).pkts (k + 1 - t.N) := if_neg (by omega)

/-- Every packet of the client carries the request number. -/
theorem cliPkt_reqNum (k : ℕ) : (t.cliPkt E k).hdr.reqNum = t.args.reqNum % 2 ^ 32 := by
  unfold cliPkt
  split_ifs
  · exact t.req.fill_reqNum _ _ k
  · exact t.req.fill_reqNum _ _ 0

theorem srvPkt_reqNum (k : ℕ) : (t.srvPkt E k).hdr.reqNum = t.args.reqNum % 2 ^ 32 := by
  unfold srvPkt
  split_ifs
  · exact t.req.fill_reqNum _ _ k
  · refine (t.respMsg.fill_reqNum _ _ _).trans ?_
    show t.reqBuf.hdr0.reqNum % 2 ^ 32 = _
    rw [show t.reqBuf.hdr0.reqNum = t.args.reqNum % 2 ^ 32 from t.req.fill_reqNum _ _ _,
      Nat.mod_mod]

end Trace

/-- A request number and its 32 bits on the wire name the same slot. -/
theorem mod_window (n : ℕ) : n % 2 ^ 32 % kSessionReqWindow = n % kSessionReqWindow := by
  unfold kSessionReqWindow
  omega

/-! ## The view of a slot and its invariant -/

/-- What concerns one slot: its fields at both ends, its packets in either channel and its
trace. -/
structure View where
  cs : CliSlot
  ss : SrvSlot
  up : List WirePkt
  down : List WirePkt
  tr : Trace

/-- The server's side, after `s` packets of the client. -/
structure SrvAt (E : Env) (v : View) (s : ℕ) : Prop where
  started : 0 < s → v.ss.curReqNum = v.tr.reqBuf.hdr0.reqNum
  counted : 0 < s → s < v.tr.N →
    v.ss.numRx = s ∧ v.ss.reqIov.iovEnd ≤ s ∧ v.ss.reqIov.iovBegin ≤ s
  type : v.tr.N ≤ s → v.tr.resp = none → v.ss.reqType = v.tr.reqBuf.hdr0.reqType
  answered : v.tr.resp.isSome → v.ss.txMsgbuf = some (v.tr.respBuf E) ∧ v.ss.savNumReqPkts = 1
  waiting : s = 0 → ∃ n, v.cs.curReqNum = n + kSessionReqWindow ∧ v.ss.curReqNum = n % 2 ^ 32

/-- **The protocol of an active slot.** -/
structure Core (E : Env) (v : View) (s q c : ℕ) : Prop where
  buf : v.cs.txMsgbuf = some v.tr.reqBuf
  reqNum : v.tr.args.reqNum = v.cs.curReqNum
  up : v.up = seg (v.tr.cliPkt E) s v.cs.numTx
  down : v.down = seg (v.tr.srvPkt E) c q
  c_le : c ≤ q
  q_le : q ≤ s
  s_le : s ≤ v.cs.numTx
  limit : v.cs.numTx ≤ v.tr.limit c
  q_eq : q = if v.tr.resp.isSome then s else min s (v.tr.N - 1)
  whole : v.tr.resp.isSome → v.tr.N ≤ s
  foreground : v.tr.resp.isSome → E.fn v.tr.reqBuf.hdr0.reqType = .kForeground
  unfinished : c < v.tr.N + v.tr.M - 1
  numRx : v.cs.numRx = c + 1 - v.tr.N
  resp : v.tr.N ≤ c → v.cs.resp
    = ⟨false, (List.range (c + 1 - v.tr.N)).flatMap v.tr.respMsg.data, v.tr.respMsg.msgSize⟩
  srv : SrvAt E v s
  called : v.tr.called
    = if v.tr.N ≤ s ∧ E.fn v.tr.reqBuf.hdr0.reqType = .kForeground then 1 else 0
  cliSent : v.tr.cliSent = (seg (v.tr.cliPkt E) 0 v.cs.numTx).map WirePkt.hdr
  srvSent : v.tr.srvSent = (seg (v.tr.srvPkt E) 0 q).map WirePkt.hdr
  cliRcvd : v.tr.cliRcvd = (seg (v.tr.srvPkt E) 0 c).map WirePkt.hdr

variable {E : Env} {v : View} {s q c n : ℕ}

/-- A response that the client has seen exists. -/
theorem Core.answered_of_le (h : Core E v s q c) (hc : v.tr.N ≤ c) : v.tr.resp.isSome := by
  by_contra hno
  have hq := h.q_eq
  have hpos := v.tr.N_pos
  have hcq := h.c_le
  rw [if_neg hno] at hq
  omega

/-! ## How the counters move -/

/-- A new request in a slot whose server side is at the request before. -/
theorem Core.start {cs : CliSlot} {ss : SrvSlot} (reqType lkey : ℕ) (msg : TxMsg) (tag : ℕ)
    (hsync : ss.curReqNum = cs.curReqNum % 2 ^ 32) :
    Core E ⟨Cli.fillSlot E.cli reqType lkey msg tag cs, ss, [], [],
      Trace.start msg ⟨reqType, E.cli.remoteSessionNum, cs.curReqNum + kSessionReqWindow, lkey⟩⟩
      0 0 0 := by
  set t := Trace.start msg ⟨reqType, E.cli.remoteSessionNum, cs.curReqNum + kSessionReqWindow, lkey⟩
    with ht
  have hpos := t.N_pos
  have hM := t.M_pos
  have hno : ¬ t.resp.isSome := by simp [ht, Trace.start]
  exact {
    buf := rfl
    reqNum := rfl
    up := (seg_self _ _).symm
    down := (seg_self _ _).symm
    c_le := le_refl _
    q_le := le_refl _
    s_le := le_refl _
    limit := Nat.zero_le _
    q_eq := by rw [Nat.zero_min, ite_self]
    whole := fun hr => absurd hr hno
    foreground := fun hr => absurd hr hno
    unfinished := by
      show 0 < t.N + t.M - 1
      omega
    numRx := by
      show 0 = 0 + 1 - t.N
      omega
    resp := fun hle => absurd (show t.N ≤ 0 from hle) (by omega)
    srv := ⟨fun hx => absurd hx (Nat.lt_irrefl 0), fun hx => absurd hx (Nat.lt_irrefl 0),
      fun hle => absurd (show t.N ≤ 0 from hle) (by omega), fun hr => absurd hr hno,
      fun _ => ⟨_, rfl, hsync⟩⟩
    called := by
      rw [if_neg]
      · rfl
      · rintro ⟨hle, -⟩
        exact absurd (show t.N ≤ 0 from hle) (by omega)
    cliSent := rfl
    srvSent := rfl
    cliRcvd := rfl }

/-- A kick of `n` packets within the limit. -/
theorem Core.kick (h : Core E v s q c)
    (hn : v.cs.numTx + n ≤ v.tr.limit c) :
    Core E { v with
      cs := { v.cs with numTx := v.cs.numTx + n }
      up := v.up ++ seg (v.tr.cliPkt E) v.cs.numTx (v.cs.numTx + n)
      tr := { v.tr with cliSent := v.tr.cliSent
        ++ (seg (v.tr.cliPkt E) v.cs.numTx (v.cs.numTx + n)).map WirePkt.hdr } } s q c where
  buf := h.buf
  reqNum := h.reqNum
  up := by
    show v.up ++ _ = seg (v.tr.cliPkt E) s (v.cs.numTx + n)
    rw [h.up, seg_append _ h.s_le (Nat.le_add_right _ _)]
  down := h.down
  c_le := h.c_le
  q_le := h.q_le
  s_le := le_trans h.s_le (Nat.le_add_right _ _)
  limit := hn
  q_eq := h.q_eq
  whole := h.whole
  foreground := h.foreground
  unfinished := h.unfinished
  numRx := h.numRx
  resp := h.resp
  srv := ⟨h.srv.started, h.srv.counted, h.srv.type, h.srv.answered, h.srv.waiting⟩
  called := h.called
  cliSent := by
    show v.tr.cliSent ++ _ = (seg (v.tr.cliPkt E) 0 (v.cs.numTx + n)).map WirePkt.hdr
    rw [h.cliSent, ← List.map_append, seg_append _ (Nat.zero_le _) (Nat.le_add_right _ _)]
  srvSent := h.srvSent
  cliRcvd := h.cliRcvd

/-- Before the request is whole, the server has answered every packet. -/
theorem Core.q_eq_of_lt (h : Core E v s q c) (hN : s < v.tr.N) : q = s ∧ ¬ v.tr.resp.isSome := by
  have hno : ¬ v.tr.resp.isSome := fun hr => absurd (h.whole hr) (by omega)
  have hq := h.q_eq
  rw [if_neg hno] at hq
  exact ⟨by omega, hno⟩

/-- The credit returns that request packet `s` makes the server send. -/
def crFor (E : Env) (t : Trace) (s : ℕ) : List WirePkt :=
  if s + 1 < t.N then [t.srvPkt E s] else []

/-- **The server takes request packet `s`.**  The fields of its slot are those that the
handler leaves. -/
theorem Core.srvReq (h : Core E v s q c) (hs : s < v.cs.numTx) (hN : s < v.tr.N) (ss : SrvSlot)
    (hnum : ss.curReqNum = v.tr.reqBuf.hdr0.reqNum)
    (hrx : s + 1 < v.tr.N →
      ss.numRx = s + 1 ∧ ss.reqIov.iovEnd ≤ s + 1 ∧ ss.reqIov.iovBegin ≤ s + 1)
    (htype : s + 1 = v.tr.N → ss.reqType = v.tr.reqBuf.hdr0.reqType) :
    ∃ q', Core E { v with
      ss := ss
      up := seg (v.tr.cliPkt E) (s + 1) v.cs.numTx
      down := v.down ++ crFor E v.tr s
      tr := { v.tr with
        called := v.tr.called + if s + 1 = v.tr.N ∧
          E.fn v.tr.reqBuf.hdr0.reqType = .kForeground then 1 else 0
        srvSent := v.tr.srvSent ++ (crFor E v.tr s).map WirePkt.hdr } } (s + 1) q' c := by
  obtain ⟨hq, hno⟩ := h.q_eq_of_lt hN
  have hcq := h.c_le
  have hseg : ∀ a, a ≤ q → seg (v.tr.srvPkt E) a q ++ crFor E v.tr s
      = seg (v.tr.srvPkt E) a (min (s + 1) (v.tr.N - 1)) := by
    intro a ha
    unfold crFor
    split_ifs with hlast
    · rw [hq, ← seg_snoc _ (by omega), Nat.min_eq_left (by omega)]
    · rw [List.append_nil, Nat.min_eq_right (by omega), hq, show v.tr.N - 1 = s by omega]
  have hcalled := h.called
  rw [if_neg (by omega)] at hcalled
  exact ⟨min (s + 1) (v.tr.N - 1), {
    buf := h.buf
    reqNum := h.reqNum
    up := rfl
    down := by
      show v.down ++ _ = _
      rw [h.down, hseg c hcq]
      rfl
    c_le := by omega
    q_le := Nat.min_le_left _ _
    s_le := hs
    limit := h.limit
    q_eq := (if_neg hno).symm
    whole := fun hr => absurd hr hno
    foreground := fun hr => absurd hr hno
    unfinished := h.unfinished
    numRx := h.numRx
    resp := h.resp
    srv := ⟨fun _ => hnum, fun _ hlt => hrx hlt,
      fun hle _ => htype (le_antisymm hN hle), fun hr => absurd hr hno,
      fun h0 => absurd h0 (Nat.succ_ne_zero s)⟩
    called := by
      show v.tr.called + _ = _
      rw [hcalled, Nat.zero_add]
      congr 1
      rw [eq_iff_iff]
      constructor
      · rintro ⟨h1, h2⟩
        exact ⟨le_of_eq h1.symm, h2⟩
      · rintro ⟨h1, h2⟩
        exact ⟨le_antisymm hN h1, h2⟩
    cliSent := h.cliSent
    srvSent := by
      show v.tr.srvSent ++ _ = _
      rw [h.srvSent, ← List.map_append, hseg 0 (Nat.zero_le _)]
      rfl
    cliRcvd := h.cliRcvd }⟩

/-- **The server takes an RFR** and sends the response packet. -/
theorem Core.srvRfr (h : Core E v s q c) (hs : s < v.cs.numTx) (hN : v.tr.N ≤ s) (numRx : ℕ) :
    Core E { v with
      ss := { v.ss with numRx := numRx }
      up := seg (v.tr.cliPkt E) (s + 1) v.cs.numTx
      down := v.down ++ [v.tr.srvPkt E s]
      tr := { v.tr with srvSent := v.tr.srvSent ++ [(v.tr.srvPkt E s).hdr] } }
      (s + 1) (s + 1) c := by
  have hlim := h.limit
  have hle : v.tr.N ≤ c := by
    by_contra hlt
    rw [Trace.limit_of_lt (by omega)] at hlim
    omega
  have hr := h.answered_of_le hle
  have hq := h.q_eq
  rw [if_pos hr] at hq
  have hcq := h.c_le
  exact {
    buf := h.buf
    reqNum := h.reqNum
    up := rfl
    down := by
      show v.down ++ _ = seg (v.tr.srvPkt E) c (s + 1)
      rw [h.down, hq, seg_snoc _ (by omega)]
    c_le := by omega
    q_le := le_refl _
    s_le := hs
    limit := h.limit
    q_eq := (if_pos hr).symm
    whole := fun _ => Nat.le_succ_of_le hN
    foreground := h.foreground
    unfinished := h.unfinished
    numRx := h.numRx
    resp := h.resp
    srv := ⟨fun _ => h.srv.started (lt_of_lt_of_le v.tr.N_pos hN),
      fun _ hlt => absurd (show s + 1 < v.tr.N from hlt) (by omega),
      fun _ hno => absurd hr (by rw [show v.tr.resp = none from hno]; simp), h.srv.answered,
      fun h0 => absurd h0 (Nat.succ_ne_zero s)⟩
    called := by
      rw [show ({ v.tr with srvSent := v.tr.srvSent ++ [(v.tr.srvPkt E s).hdr] } : Trace).called
        = v.tr.called from rfl, h.called]
      congr 1
      rw [eq_iff_iff]
      constructor
      · rintro ⟨-, h2⟩
        exact ⟨Nat.le_succ_of_le hN, h2⟩
      · rintro ⟨-, h2⟩
        exact ⟨hN, h2⟩
    cliSent := h.cliSent
    srvSent := by
      show v.tr.srvSent ++ [(v.tr.srvPkt E s).hdr] = (seg (v.tr.srvPkt E) 0 (s + 1)).map _
      rw [h.srvSent, hq, seg_snoc _ (Nat.zero_le _), List.map_append]
      rfl
    cliRcvd := h.cliRcvd }

/-- The trace after the handler's answer. -/
def Trace.answer (t : Trace) (msg : TxMsg) (lkey : ℕ) : Trace := { t with resp := some (msg, lkey) }

/-- The answer does not change the credit returns. -/
theorem Trace.srvPkt_answer (E : Env) (t : Trace) (msg : TxMsg) (lkey : ℕ) {k : ℕ}
    (hk : k + 1 < t.N) : t.srvPkt E k = (t.answer msg lkey).srvPkt E k := by
  rw [Trace.srvPkt_cr E hk, Trace.srvPkt_cr (t := t.answer msg lkey) E hk]
  rfl

/-- A request that is whole and not answered is just whole. -/
theorem Core.at_answer (h : Core E v s q c) (hN : v.tr.N ≤ s) (hno : v.tr.resp = none) :
    s = v.tr.N ∧ v.cs.numTx = v.tr.N ∧ q + 1 = v.tr.N := by
  have hq := h.q_eq
  have hlim := h.limit
  have hpos := v.tr.N_pos
  have hcq := h.c_le
  have hs := h.s_le
  rw [if_neg (by rw [hno]; simp)] at hq
  rw [Trace.limit_of_lt (by omega)] at hlim
  omega

/-- **The handler answers**, and the server sends response packet 0. -/
theorem Core.answer (h : Core E v s q c) (hN : v.tr.N ≤ s) (hno : v.tr.resp = none)
    (hfg : E.fn v.tr.reqBuf.hdr0.reqType = .kForeground) (msg : TxMsg) (lkey : ℕ) :
    Core E { v with
      ss := { v.ss with
        savNumReqPkts := 1
        txMsgbuf := some ((v.tr.answer msg lkey).respBuf E)
        reqType := kInvalidReqType }
      down := v.down ++ [((v.tr.answer msg lkey).respBuf E).pkts 0]
      tr := { v.tr.answer msg lkey with
        srvSent := v.tr.srvSent ++ [(((v.tr.answer msg lkey).respBuf E).pkts 0).hdr] } } s s c := by
  obtain ⟨hs, htx, hq⟩ := h.at_answer hN hno
  have hcq := h.c_le
  have hlast : (v.tr.answer msg lkey).srvPkt E q = ((v.tr.answer msg lkey).respBuf E).pkts 0 := by
    rw [Trace.srvPkt_resp (t := v.tr.answer msg lkey) E (le_of_eq hq.symm)]
    show ((v.tr.answer msg lkey).respBuf E).pkts (q + 1 - v.tr.N) = _
    rw [hq, Nat.sub_self]
  have hsame : ∀ a, a ≤ q → seg (v.tr.srvPkt E) a q
        ++ [((v.tr.answer msg lkey).respBuf E).pkts 0]
      = seg ((v.tr.answer msg lkey).srvPkt E) a s := by
    intro a ha
    rw [hs, ← hq, seg_snoc _ ha, hlast]
    congr 1
    apply seg_congr
    intro k _ hk
    exact v.tr.srvPkt_answer E msg lkey (by omega)
  exact {
    buf := h.buf
    reqNum := h.reqNum
    up := h.up
    down := by
      show v.down ++ _ = _
      rw [h.down, hsame c hcq]
      rfl
    c_le := by omega
    q_le := le_refl _
    s_le := h.s_le
    limit := by
      have hlim : (v.tr.answer msg lkey).limit c = v.tr.N :=
        Trace.limit_of_lt (show c < v.tr.N by omega)
      exact le_of_eq (htx.trans hlim.symm)
    q_eq := (if_pos rfl).symm
    whole := fun _ => hN
    foreground := fun _ => hfg
    unfinished := by
      have hM := (v.tr.answer msg lkey).M_pos
      show c < v.tr.N + (v.tr.answer msg lkey).M - 1
      omega
    numRx := h.numRx
    resp := fun hle => absurd (show v.tr.N ≤ c from hle) (by omega)
    srv := ⟨h.srv.started, fun _ hlt => absurd (show s < v.tr.N from hlt) (by omega),
      fun _ hnone => absurd hnone (by simp [Trace.answer]), fun _ => ⟨rfl, rfl⟩, h.srv.waiting⟩
    called := h.called
    cliSent := h.cliSent
    srvSent := by
      show v.tr.srvSent ++ [(((v.tr.answer msg lkey).respBuf E).pkts 0).hdr] = _
      have hh := congrArg (List.map WirePkt.hdr) (hsame 0 (Nat.zero_le _))
      rw [List.map_append] at hh
      rw [h.srvSent]
      exact hh
    cliRcvd := by
      show v.tr.cliRcvd = (seg ((v.tr.answer msg lkey).srvPkt E) 0 c).map WirePkt.hdr
      rw [h.cliRcvd]
      congr 1
      apply seg_congr
      intro k _ hk
      exact v.tr.srvPkt_answer E msg lkey (by omega) }

/-- The client processes `Q c` next. -/
theorem Core.cliRcvd_snoc (h : Core E v s q c) : v.tr.cliRcvd ++ [(v.tr.srvPkt E c).hdr]
    = (seg (v.tr.srvPkt E) 0 (c + 1)).map WirePkt.hdr := by
  rw [h.cliRcvd, seg_snoc _ (Nat.zero_le _), List.map_append]
  rfl

/-- **The client takes a credit return.** -/
theorem Core.cliCr (h : Core E v s q c) (hcq : c < q) (hN : c + 1 < v.tr.N) :
    Core E { v with
      down := seg (v.tr.srvPkt E) (c + 1) q
      tr := { v.tr with cliRcvd := v.tr.cliRcvd ++ [(v.tr.srvPkt E c).hdr] } } s q (c + 1) where
  buf := h.buf
  reqNum := h.reqNum
  up := h.up
  down := rfl
  c_le := hcq
  q_le := h.q_le
  s_le := h.s_le
  limit := by
    have hlim := h.limit
    rw [Trace.limit_of_lt (by omega)] at hlim
    show v.cs.numTx ≤ v.tr.limit (c + 1)
    rwa [Trace.limit_of_lt hN]
  q_eq := h.q_eq
  whole := h.whole
  foreground := h.foreground
  unfinished := by
    have hM := v.tr.M_pos
    show c + 1 < v.tr.N + v.tr.M - 1
    omega
  numRx := by
    show v.cs.numRx = c + 1 + 1 - v.tr.N
    rw [h.numRx]
    omega
  resp := fun hle => absurd (show v.tr.N ≤ c + 1 from hle) (by omega)
  srv := ⟨h.srv.started, h.srv.counted, h.srv.type, h.srv.answered, h.srv.waiting⟩
  called := h.called
  cliSent := h.cliSent
  srvSent := h.srvSent
  cliRcvd := h.cliRcvd_snoc

/-- **The client takes a response packet** that is not the last. -/
theorem Core.cliResp (h : Core E v s q c) (hcq : c < q) (hN : v.tr.N ≤ c + 1)
    (hmore : c + 1 < v.tr.N + v.tr.M - 1) :
    Core E { v with
      cs := { v.cs with
        numRx := v.cs.numRx + 1
        resp := ⟨false, (List.range (c + 2 - v.tr.N)).flatMap v.tr.respMsg.data,
          v.tr.respMsg.msgSize⟩ }
      down := seg (v.tr.srvPkt E) (c + 1) q
      tr := { v.tr with cliRcvd := v.tr.cliRcvd ++ [(v.tr.srvPkt E c).hdr] } } s q (c + 1) where
  buf := h.buf
  reqNum := h.reqNum
  up := h.up
  down := rfl
  c_le := hcq
  q_le := h.q_le
  s_le := h.s_le
  limit := by
    have hlim := h.limit
    show v.cs.numTx ≤ v.tr.limit (c + 1)
    rw [Trace.limit_of_le hN]
    unfold Trace.limit at hlim
    split_ifs at hlim <;> omega
  q_eq := h.q_eq
  whole := h.whole
  foreground := h.foreground
  unfinished := hmore
  numRx := by
    show v.cs.numRx + 1 = c + 1 + 1 - v.tr.N
    rw [h.numRx]
    omega
  resp := fun _ => rfl
  srv := ⟨h.srv.started, h.srv.counted, h.srv.type, h.srv.answered, h.srv.waiting⟩
  called := h.called
  cliSent := h.cliSent
  srvSent := h.srvSent
  cliRcvd := h.cliRcvd_snoc

/-! ## Packets and their answers -/

namespace Trace

variable {t : Trace} {a k j : ℕ}

theorem cliPkt_type (E : Env) (t : Trace) (k : ℕ) :
    (t.cliPkt E k).hdr.pktType = if k < t.N then .kReq else .kRFR := by
  unfold cliPkt
  split_ifs <;> rfl

theorem srvPkt_type (E : Env) (t : Trace) (k : ℕ) :
    (t.srvPkt E k).hdr.pktType = if k + 1 < t.N then .kExplCR else .kResp := by
  unfold srvPkt
  split_ifs <;> rfl

theorem cliPkt_num (E : Env) (hk : k < t.N + t.M - 1) :
    (t.cliPkt E k).hdr.pktNum = if k < t.N then k else k - t.N + 1 := by
  unfold cliPkt
  split_ifs with h
  · exact t.req.fill_pktNum _ _ _ h
  · have hM := t.M_lt
    unfold pkgIndexSize at hM
    exact Nat.mod_eq_of_lt (by omega)

theorem srvPkt_num (E : Env) (hk : k < t.N + t.M - 1) :
    (t.srvPkt E k).hdr.pktNum = if k + 1 < t.N then k else k + 1 - t.N := by
  unfold srvPkt
  split_ifs with h
  · exact t.req.fill_pktNum .request t.args k (by show k < t.N; omega)
  · exact t.respMsg.fill_pktNum _ _ _ (by show k + 1 - t.N < t.M; omega)

/-- **`Q j` returns the credit of `P k`** only if `P k` was sent no later, and it does for
`j = k`. -/
theorem acks_iff (E : Env) (hk : k < t.N + t.M - 1) (hj : j < t.N + t.M - 1) :
    (acks (t.srvPkt E j).hdr (t.cliPkt E k).hdr = true → k ≤ j) ∧
      acks (t.srvPkt E k).hdr (t.cliPkt E k).hdr = true := by
  unfold acks
  rw [cliPkt_type, srvPkt_type, srvPkt_type, cliPkt_num E hk, srvPkt_num E hk, srvPkt_num E hj]
  by_cases hkN : k < t.N
  · simp only [if_pos hkN, decide_eq_true_eq]
    constructor
    · rintro (⟨ht, hn⟩ | ⟨ht, hn⟩)
      · by_cases hjN : j + 1 < t.N
        · rw [if_pos hjN] at hn
          omega
        · rw [if_neg hjN] at ht
          exact absurd ht (by decide)
      · by_cases hjN : j + 1 < t.N
        · rw [if_pos hjN] at ht
          exact absurd ht (by decide)
        · omega
    · by_cases hlast : k + 1 < t.N
      · exact Or.inl ⟨if_pos hlast, if_pos hlast⟩
      · refine Or.inr ⟨if_neg hlast, ?_⟩
        rw [if_neg hlast]
        omega
  · simp only [if_neg hkN, decide_eq_true_eq]
    constructor
    · rintro ⟨ht, hn⟩
      by_cases hjN : j + 1 < t.N
      · rw [if_pos hjN] at ht
        exact absurd ht (by decide)
      · rw [if_neg hjN] at hn
        omega
    · have hlast : ¬ k + 1 < t.N := by omega
      refine ⟨if_neg hlast, ?_⟩
      rw [if_neg hlast]
      omega

/-- The client's packets are requests and RFRs. -/
theorem unacked_eq_countP (E : Env) (h : t.cliSent = (seg (t.cliPkt E) 0 a).map WirePkt.hdr) :
    t.unacked = t.cliSent.countP t.waiting := by
  have key : ∀ ps : List Pkthdr, (∀ p ∈ ps, p.pktType = .kReq ∨ p.pktType = .kRFR) →
      ps.countP (fun p => p.pktType = .kReq ∧ t.waiting p = true)
        + ps.countP (fun p => p.pktType = .kRFR ∧ t.waiting p = true) = ps.countP t.waiting := by
    intro ps
    induction ps with
    | nil => intro _; rfl
    | cons p ps ih =>
      intro hp
      have hrest := ih fun x hx => hp x (List.mem_cons_of_mem _ hx)
      rw [List.countP_cons, List.countP_cons, List.countP_cons]
      rcases hp p (List.mem_cons_self ..) with h1 | h1 <;> simp [h1] at hrest ⊢ <;> omega
  apply key
  intro p hp
  rw [h, map_seg, mem_seg] at hp
  obtain ⟨k, -, -, rfl⟩ := hp
  rw [cliPkt_type]
  split_ifs
  · exact Or.inl rfl
  · exact Or.inr rfl

/-- **Outstanding packets.**  With `a` packets sent and the answers to the first `c` of them
processed, `a - c` are waiting. -/
theorem unacked_eq {c : ℕ} (E : Env) (ha : a ≤ t.N + t.M - 1)
    (hsent : t.cliSent = (seg (t.cliPkt E) 0 a).map WirePkt.hdr)
    (hrcvd : t.cliRcvd = (seg (t.srvPkt E) 0 c).map WirePkt.hdr) :
    t.unacked = a - c := by
  rw [unacked_eq_countP E hsent, hsent, map_seg]
  apply countP_seg
  intro k hk
  unfold waiting
  rw [hrcvd, map_seg, Bool.not_eq_true', List.any_eq_false]
  constructor
  · intro hall
    by_contra hlt
    exact hall _ (mem_seg.mpr ⟨k, Nat.zero_le _, by omega, rfl⟩)
      (acks_iff (j := k) E (by omega) (by omega)).2
  · intro hle q hq hack
    obtain ⟨j, -, hj, rfl⟩ := mem_seg.mp hq
    have := (acks_iff E (by omega) (by omega)).1 hack
    omega

end Trace

theorem Core.numTx_le (h : Core E v s q c) : v.cs.numTx ≤ v.tr.N + v.tr.M - 1 := by
  have hlim := h.limit
  have hM := v.tr.M_pos
  unfold Trace.limit at hlim
  split_ifs at hlim <;> omega

theorem Core.unacked (h : Core E v s q c) : v.tr.unacked = v.cs.numTx - c :=
  Trace.unacked_eq E h.numTx_le h.cliSent h.cliRcvd

/-- A step that leaves the client's slot and what it has received leaves the waiting packets. -/
theorem Core.unacked_congr {v' : View} {s' q' : ℕ} (h : Core E v s q c) (h' : Core E v' s' q' c)
    (hcs : v'.cs = v.cs) : v'.tr.unacked = v.tr.unacked := by
  rw [h.unacked, h'.unacked, hcs]

end HuiRpc
