/-
# The server's address in a new session

`create_session_st(remote_uri, …)` splits the address at its first colon, and stores the host with
`strcpy` and the port as 16 bits in the server endpoint of the session.  `HuiRpc.Sm` keeps the host
as a string; here the bytes of the endpoint are modelled, from `hostname_` on.

* The host may be as long as the array `hostname_`, so that the terminating zero of a host of 128
  characters is written behind it, to `sm_udp_port_`, and overwritten by the port.
* `std::stoi` gives an `int`, of which the low 16 bits are stored.

`create_session_uri_iff` says for which addresses the endpoint is what was asked for.
-/
import HuiRpc.Sm

namespace HuiRpc

/-! ## Splitting the address -/

/-- The terminating zero of a C string. -/
def nul : Char := Char.ofNat 0

/-- `isspace`. -/
def isSpace (c : Char) : Bool := c = ' ' ∨ (9 ≤ c.toNat ∧ c.toNat ≤ 13)

/-- An optional sign. -/
def readSign : List Char → Bool × List Char
  | '-' :: cs => (true, cs)
  | '+' :: cs => (false, cs)
  | cs => (false, cs)

/-- `std::stoi`; `none` if it throws. -/
def stoi (s : List Char) : Option ℤ :=
  match readSign (s.dropWhile isSpace) with
  | (neg, cs) =>
      let digits := cs.takeWhile Char.isDigit
      let v : ℤ := Nat.ofDigitChars 10 digits 0
      let v := if neg then -v else v
      if digits = [] then none else if -2 ^ 31 ≤ v ∧ v < 2 ^ 31 then some v else none

/-- `extract_hostname_from_uri`. -/
def extractHostnameFromUri (uri : List Char) : List Char := uri.takeWhile (· ≠ ':')

/-- `uri.substr(colon_pos + 1)`; without a colon, `npos + 1` is 0. -/
def afterColon (uri : List Char) : List Char :=
  if ':' ∈ uri then (uri.dropWhile (· ≠ ':')).drop 1 else uri

/-- `extract_udp_port_from_uri`. -/
def extractUdpPortFromUri (uri : List Char) : Option ℕ :=
  (stoi (afterColon uri)).map fun v => (v % 2 ^ 16).toNat

/-! ## The endpoint in memory -/

/-- The bytes of a `SessionEndpoint` from `hostname_` on. -/
def kPortAt : ℕ := kMaxHostnameLen

def kRpcIdAt : ℕ := kPortAt + 2

def kSessionNumAt : ℕ := kPortAt + 4

def kRoutingInfoAt : ℕ := kPortAt + 6

def kMaxRoutingInfoSize : ℕ := 48

def kEndpointEnd : ℕ := kRoutingInfoAt + kMaxRoutingInfoSize

/-- `bs` is written from `p` on. -/
def writeAt (p : ℕ) (bs : List Char) (m : ℕ → Char) : ℕ → Char :=
  fun a => if p ≤ a ∧ a < p + bs.length then bs.getD (a - p) nul else m a

/-- A `uint16_t`. -/
def u16 (n : ℕ) : List Char := [Char.ofNat (n % 256), Char.ofNat (n / 256 % 256)]

/-- `SessionEndpoint()`. -/
def newEndpoint (junk : ℕ → Char) : ℕ → Char :=
  writeAt kRoutingInfoAt (List.replicate kMaxRoutingInfoSize nul)
    (writeAt kSessionNumAt (u16 kInvalidSessionNum)
      (writeAt kRpcIdAt [Char.ofNat 255]
        (writeAt kPortAt (u16 0) (writeAt 0 (List.replicate kMaxHostnameLen nul) junk))))

/-- `c_str()`, up to the first zero. -/
def cStr (s : List Char) : List Char := s.takeWhile (· ≠ nul)

/-- What `strcpy` writes. -/
def strcpyBytes (s : List Char) : List Char := cStr s ++ [nul]

/-- A server endpoint: its bytes, and the places that `strcpy` has written. -/
structure ServerEndpoint where
  cells : ℕ → Char
  copied : List ℕ

/-- The server endpoint that `create_session_st` fills in. -/
def storeServer (junk : ℕ → Char) (hostname : List Char) (smUdpPort rpcId : ℕ) :
    ServerEndpoint where
  cells := writeAt kRpcIdAt [Char.ofNat (rpcId % 256)]
    (writeAt kPortAt (u16 smUdpPort) (writeAt 0 (strcpyBytes hostname) (newEndpoint junk)))
  copied := List.range (strcpyBytes hostname).length

/-- The C string at `p`; `none` if no zero is found in `fuel` bytes. -/
def readCString (m : ℕ → Char) : ℕ → ℕ → Option (List Char)
  | 0, _ => none
  | fuel + 1, p => if m p = nul then some [] else (readCString m fuel (p + 1)).map (m p :: ·)

/-- `sm_udp_port_`. -/
def ServerEndpoint.smUdpPort (s : ServerEndpoint) : ℕ :=
  (s.cells kPortAt).toNat + 256 * (s.cells (kPortAt + 1)).toNat

/-- `uri()`; `none` if it reads past the endpoint. -/
def ServerEndpoint.uri (s : ServerEndpoint) : Option (List Char) :=
  (readCString s.cells kEndpointEnd 0).map fun host => host ++ ':' :: Nat.toDigits 10 s.smUdpPort

/-! ## `create_session_st` -/

inductive CreateResult
  | threw
  | refused (ret : SmRet)
  | created (sessionNum : ℕ) (server : ServerEndpoint)

/-- `create_session_st(remote_uri, rem_rpc_id)`. -/
def createSessionSt (C : SmCfg) (inDispatch : Bool) (remoteUri : List Char)
    (remRpcId uniqToken : ℕ) (junk : ℕ → Char) (r : Sm) : CreateResult :=
  if inDispatch = false then .refused .eperm
  else
    match extractUdpPortFromUri remoteUri with
    | none => .threw
    | some port =>
        let hostname := extractHostnameFromUri remoteUri
        match (r.createSession C hostname port remRpcId uniqToken).2 with
        | .sessionNum n => .created n (storeServer junk hostname port remRpcId)
        | ret => .refused ret

/-- Two addresses are the same up to leading zeros of the port. -/
def SameUri (a b : List Char) : Prop :=
  ∃ host zeros port, (∀ c ∈ port, c.isDigit = true) ∧
    a = host ++ ':' :: (List.replicate zeros '0' ++ port) ∧ b = host ++ ':' :: port

/-- **What the endpoint should be.** -/
structure StoredWell (remoteUri : List Char) (s : ServerEndpoint) : Prop where
  terminated : ∃ i < kMaxHostnameLen, s.cells i = nul
  inside : ∀ a ∈ s.copied, a < kMaxHostnameLen
  sameUri : ∃ uri, s.uri = some uri ∧ SameUri remoteUri uri

/-! ## Decimal numbers -/

theorem digit_ne_colon {c : Char} (h : c.isDigit = true) : c ≠ ':' := by
  rintro rfl
  revert h
  decide

theorem digit_range {c : Char} (h : c.isDigit = true) : 48 ≤ c.toNat ∧ c.toNat ≤ 57 := by
  unfold Char.isDigit at h
  rw [Bool.and_eq_true, decide_eq_true_eq, decide_eq_true_eq] at h
  exact ⟨UInt32.le_iff_toNat_le.mp h.1, UInt32.le_iff_toNat_le.mp h.2⟩

theorem digitChar_toNat_sub {c : Char} (h : c.isDigit = true) :
    Nat.digitChar (c.toNat - '0'.toNat) = c ∧ c.toNat - '0'.toNat < 10 := by
  have hrange := digit_range h
  have hc : Char.ofNat c.toNat = c := Char.ofNat_toNat c
  generalize c.toNat = n at hrange hc
  subst hc
  obtain ⟨h1, h2⟩ := hrange
  interval_cases n <;> decide

/-- A decimal number is the shortest one behind zeros. -/
theorem eq_zeros_toDigits {ds : List Char} (hne : ds ≠ []) (hd : ∀ c ∈ ds, c.isDigit = true) :
    ∃ k, ds = List.replicate k '0' ++ Nat.toDigits 10 (Nat.ofDigitChars 10 ds 0) := by
  induction ds using List.reverseRecOn with
  | nil => exact absurd rfl hne
  | append_singleton ds c ih =>
    obtain ⟨hc, hlt⟩ := digitChar_toNat_sub (hd c (by simp))
    have hval : Nat.ofDigitChars 10 (ds ++ [c]) 0
        = 10 * Nat.ofDigitChars 10 ds 0 + (c.toNat - '0'.toNat) := by
      rw [Nat.ofDigitChars_append]
      rfl
    by_cases hds : ds = []
    · refine ⟨0, ?_⟩
      subst hds
      rw [hval, show Nat.ofDigitChars 10 [] 0 = 0 from rfl, Nat.mul_zero, Nat.zero_add,
        Nat.toDigits_of_lt_base hlt, hc]
      rfl
    · obtain ⟨k, hk⟩ := ih hds fun x hx => hd x (by simp [hx])
      rw [hval]
      rcases Nat.eq_zero_or_pos (Nat.ofDigitChars 10 ds 0) with hz | hpos
      · refine ⟨k + 1, ?_⟩
        rw [hz, Nat.toDigits_zero] at hk
        rw [hz, Nat.mul_zero, Nat.zero_add, Nat.toDigits_of_lt_base hlt, hc, List.replicate_succ',
          ← hk]
      · refine ⟨k, ?_⟩
        rw [← Nat.toDigits_append_toDigits (by decide) hpos hlt, Nat.toDigits_of_lt_base hlt, hc,
          ← List.append_assoc, ← hk]

/-- The port is what stands behind the last colon. -/
theorem split_last_colon {h₁ h₂ p₁ p₂ : List Char} (hp₁ : ∀ c ∈ p₁, c.isDigit = true)
    (hp₂ : ∀ c ∈ p₂, c.isDigit = true) (h : h₁ ++ ':' :: p₁ = h₂ ++ ':' :: p₂) :
    h₁ = h₂ ∧ p₁ = p₂ := by
  have hno : ∀ {x p q : List Char}, (∀ c ∈ p, c.isDigit = true) → ':' :: p = x ++ ':' :: q →
      x = [] := by
    intro x p q hp heq
    cases x with
    | nil => rfl
    | cons a x =>
      rw [List.cons_append, List.cons.injEq] at heq
      exact absurd rfl (digit_ne_colon (hp ':' (by rw [heq.2]; simp)))
  rcases List.append_eq_append_iff.mp h with ⟨x, rfl, hx⟩ | ⟨x, rfl, hx⟩
  · obtain rfl := hno hp₁ hx
    exact ⟨(List.append_nil _).symm, (List.cons.inj hx).2⟩
  · obtain rfl := hno hp₂ hx
    exact ⟨List.append_nil _, (List.cons.inj hx).2.symm⟩

/-- A decimal number is read whole. -/
theorem stoi_digits {ds : List Char} (hne : ds ≠ []) (hd : ∀ c ∈ ds, c.isDigit = true) :
    stoi ds = if Nat.ofDigitChars 10 ds 0 < 2 ^ 31 then some (Nat.ofDigitChars 10 ds 0 : ℤ)
      else none := by
  obtain ⟨c, cs, rfl⟩ := List.exists_cons_of_ne_nil hne
  have hc := hd c List.mem_cons_self
  have hspace : isSpace c = false := by
    have hrange := digit_range hc
    unfold isSpace
    rw [decide_eq_false_iff_not]
    rintro (rfl | hsp)
    · revert hc
      decide
    · omega
  have hsign : readSign (c :: cs) = (false, c :: cs) := by
    unfold readSign
    split
    · next heq =>
      rw [(List.cons.inj heq).1] at hc
      exact absurd hc (by decide)
    · next heq =>
      rw [(List.cons.inj heq).1] at hc
      exact absurd hc (by decide)
    · rfl
  unfold stoi
  rw [List.dropWhile_cons_of_neg (by rw [hspace]; decide), hsign]
  dsimp only
  rw [List.takeWhile_eq_self_iff.mpr hd, if_neg hne]
  simp only [Bool.false_eq_true, if_false]
  congr 1
  rw [eq_iff_iff]
  omega

/-! ## What the endpoint holds -/

theorem writeAt_of_lt {p a : ℕ} (h : a < p) (bs : List Char) (m : ℕ → Char) :
    writeAt p bs m a = m a := if_neg (by omega)

theorem getD_replicate_nul (n i : ℕ) : (List.replicate n nul).getD i nul = nul := by
  rw [List.getD_eq_getElem?_getD, List.getElem?_replicate]
  split_ifs <;> rfl

/-- The array holds the host up to its first zero, and zeros behind it. -/
theorem cells_hostname (junk : ℕ → Char) (hostname : List Char) (smUdpPort rpcId : ℕ) {i : ℕ}
    (hi : i < kMaxHostnameLen) :
    (storeServer junk hostname smUdpPort rpcId).cells i = (cStr hostname).getD i nul := by
  have hport : i < kPortAt := hi
  have hnew : newEndpoint junk i = nul := by
    unfold newEndpoint
    rw [writeAt_of_lt (by unfold kRoutingInfoAt; omega),
      writeAt_of_lt (by unfold kSessionNumAt; omega),
      writeAt_of_lt (by unfold kRpcIdAt; omega), writeAt_of_lt hport]
    unfold writeAt
    rw [if_pos (by rw [List.length_replicate]; omega), getD_replicate_nul]
  unfold storeServer
  dsimp only
  rw [writeAt_of_lt (by unfold kRpcIdAt; omega), writeAt_of_lt hport]
  unfold writeAt strcpyBytes
  rw [hnew, Nat.sub_zero]
  split_ifs with hin
  · by_cases hlt : i < (cStr hostname).length
    · rw [List.getD_append _ _ _ _ hlt]
    · have hlen := not_lt.mp hlt
      rw [List.getD_append_right _ _ _ _ hlen, List.getD_eq_default _ _ hlen]
      exact getD_replicate_nul 1 _
  · rw [List.getD_eq_default]
    rw [List.length_append] at hin
    omega

theorem smUdpPort_storeServer (junk : ℕ → Char) (hostname : List Char) {smUdpPort : ℕ}
    (hp : smUdpPort < 2 ^ 16) (rpcId : ℕ) :
    (storeServer junk hostname smUdpPort rpcId).smUdpPort = smUdpPort := by
  have hbyte : ∀ n < 256, (Char.ofNat n).toNat = n := by
    intro n hn
    rw [Char.toNat_ofNat, if_pos (Or.inl (by omega))]
  have hlow : (storeServer junk hostname smUdpPort rpcId).cells kPortAt
      = Char.ofNat (smUdpPort % 256) := by
    simp [storeServer, writeAt, kRpcIdAt, u16]
  have hhigh : (storeServer junk hostname smUdpPort rpcId).cells (kPortAt + 1)
      = Char.ofNat (smUdpPort / 256 % 256) := by
    simp [storeServer, writeAt, kRpcIdAt, u16]
  unfold ServerEndpoint.smUdpPort
  rw [hlow, hhigh, hbyte _ (by omega), hbyte _ (by omega)]
  omega

theorem readCString_eq_some {m : ℕ → Char} {fuel p : ℕ} {s : List Char} :
    readCString m fuel p = some s ↔ s.length < fuel ∧ nul ∉ s ∧ m (p + s.length) = nul ∧
      (List.range' p s.length).map m = s := by
  induction fuel generalizing p s with
  | zero => simp [readCString]
  | succ fuel ih =>
    rw [readCString]
    by_cases hz : m p = nul
    · rw [if_pos hz]
      cases s with
      | nil => simp [hz]
      | cons c cs =>
        simp only [Option.some.injEq, reduceCtorEq, false_iff]
        rintro ⟨-, hno, -, hmap⟩
        rw [List.length_cons, List.range'_succ, List.map_cons, List.cons.injEq] at hmap
        exact hno (by rw [← hmap.1, hz]; exact List.mem_cons_self)
    · rw [if_neg hz]
      cases s with
      | nil => simp [hz]
      | cons c cs =>
        have hcons : (readCString m fuel (p + 1)).map (m p :: ·) = some (c :: cs) ↔
            m p = c ∧ readCString m fuel (p + 1) = some cs := by
          cases readCString m fuel (p + 1) <;> simp
        rw [hcons, ih, List.length_cons, List.range'_succ, List.map_cons, List.cons.injEq,
          List.mem_cons, not_or, Nat.add_lt_add_iff_right,
          show p + (cs.length + 1) = p + 1 + cs.length by omega]
        constructor
        · rintro ⟨rfl, hlen, hno, hend, hmap⟩
          exact ⟨hlen, ⟨fun h => hz h.symm, hno⟩, hend, rfl, hmap⟩
        · rintro ⟨hlen, ⟨-, hno⟩, hend, hhead, hmap⟩
          exact ⟨hhead, hlen, hno, hend, hmap⟩

theorem cStr_of_notMem {s : List Char} (h : nul ∉ s) : cStr s = s := by
  apply List.takeWhile_eq_self_iff.mpr
  intro c hc
  rw [decide_eq_true_eq]
  rintro rfl
  exact h hc

/-- No colon gets into the array. -/
theorem cells_ne_colon (junk : ℕ → Char) (uri : List Char) (smUdpPort rpcId : ℕ) {i : ℕ}
    (hi : i < kMaxHostnameLen) :
    (storeServer junk (extractHostnameFromUri uri) smUdpPort rpcId).cells i ≠ ':' := by
  rw [cells_hostname _ _ _ _ hi]
  intro hcolon
  by_cases hlt : i < (cStr (extractHostnameFromUri uri)).length
  · rw [List.getD_eq_getElem _ _ hlt] at hcolon
    have hmem := List.getElem_mem hlt
    rw [hcolon] at hmem
    have hhost := List.mem_takeWhile_imp ((List.takeWhile_sublist _).subset hmem)
    simp at hhost
  · rw [List.getD_eq_default _ _ (not_lt.mp hlt)] at hcolon
    exact absurd hcolon (by decide)

/-- An address whose host has no colon is split there. -/
theorem split_first_colon {host : List Char} (port : List Char) (h : ':' ∉ host) :
    extractHostnameFromUri (host ++ ':' :: port) = host ∧
      afterColon (host ++ ':' :: port) = port := by
  have hall : ∀ c ∈ host, decide (c ≠ ':') = true := by
    intro c hc
    rw [decide_eq_true_eq]
    rintro rfl
    exact h hc
  constructor
  · unfold extractHostnameFromUri
    rw [List.takeWhile_append_of_pos hall, List.takeWhile_cons_of_neg (by simp), List.append_nil]
  · unfold afterColon
    rw [if_pos (by simp), List.dropWhile_append_of_pos hall]
    rfl

/-- The stored host, when its zero is in the array. -/
theorem readCString_storeServer (junk : ℕ → Char) {hostname : List Char} (smUdpPort rpcId : ℕ)
    (hno : nul ∉ hostname) (hlen : hostname.length < kMaxHostnameLen) :
    readCString (storeServer junk hostname smUdpPort rpcId).cells kEndpointEnd 0
      = some hostname := by
  have hstr := cStr_of_notMem hno
  refine readCString_eq_some.mpr ⟨?_, hno, ?_, ?_⟩
  · unfold kEndpointEnd kRoutingInfoAt kPortAt
    omega
  · rw [Nat.zero_add, cells_hostname _ _ _ _ hlen, hstr, List.getD_eq_default _ _ le_rfl]
  · apply List.ext_getElem
    · simp
    · intro i hi _
      rw [List.length_map, List.length_range'] at hi
      rw [List.getElem_map, List.getElem_range', Nat.zero_add, Nat.one_mul,
        cells_hostname _ _ _ _ (by omega), hstr, List.getD_eq_getElem _ _ hi]

/-- What a created session stores. -/
theorem createSessionSt_created {C : SmCfg} {inDispatch : Bool} {uri : List Char}
    {remRpcId uniqToken n : ℕ} {junk : ℕ → Char} {r : Sm} {s : ServerEndpoint}
    (h : createSessionSt C inDispatch uri remRpcId uniqToken junk r = .created n s) :
    ∃ v, stoi (afterColon uri) = some v ∧
      s = storeServer junk (extractHostnameFromUri uri) (v % 2 ^ 16).toNat remRpcId := by
  unfold createSessionSt at h
  split_ifs at h
  cases hport : extractUdpPortFromUri uri with
  | none =>
    rw [hport] at h
    cases h
  | some port =>
    rw [hport] at h
    obtain ⟨v, hv, rfl⟩ := Option.map_eq_some_iff.mp hport
    refine ⟨v, hv, ?_⟩
    dsimp only at h
    split at h
    · cases h
      rfl
    · cases h

theorem createSessionSt_accepts {C : SmCfg} {uri : List Char} {remRpcId uniqToken n p : ℕ}
    {junk : ℕ → Char} {r : Sm} (hport : extractUdpPortFromUri uri = some p)
    (hret : (r.createSession C (extractHostnameFromUri uri) p remRpcId uniqToken).2
      = .sessionNum n) :
    createSessionSt C true uri remRpcId uniqToken junk r
      = .created n (storeServer junk (extractHostnameFromUri uri) p remRpcId) := by
  unfold createSessionSt
  rw [if_neg (by decide), hport]
  dsimp only
  rw [hret]

/-- **The stored address.**  Whenever `create_session_st` accepts an address `host:port` with a
decimal port, the server endpoint is what was asked for iff the host has no colon, no zero byte and
fewer characters than the array, and the port has 16 bits. -/
theorem create_session_uri_iff {C : SmCfg} {inDispatch : Bool} {host port : List Char}
    {remRpcId uniqToken n : ℕ} {junk : ℕ → Char} {r : Sm} {s : ServerEndpoint}
    (hne : port ≠ []) (hport : ∀ c ∈ port, c.isDigit = true)
    (hcreated : createSessionSt C inDispatch (host ++ ':' :: port) remRpcId uniqToken junk r
      = .created n s) :
    StoredWell (host ++ ':' :: port) s ↔
      ':' ∉ host ∧ nul ∉ host ∧ host.length < kMaxHostnameLen ∧
        Nat.ofDigitChars 10 port 0 < 2 ^ 16 := by
  obtain ⟨v, hv, rfl⟩ := createSessionSt_created hcreated
  have hlt : (v % 2 ^ 16).toNat < 2 ^ 16 := by omega
  constructor
  · rintro ⟨⟨i, hi, hzero⟩, -, uri, huri, h, zeros, d, hd, hasked, rfl⟩
    obtain ⟨u, hu, hstored⟩ := Option.map_eq_some_iff.mp huri
    rw [smUdpPort_storeServer _ _ hlt] at hstored
    have hdigits : ∀ c ∈ Nat.toDigits 10 (v % 2 ^ 16).toNat, c.isDigit = true :=
      fun c hc => Nat.isDigit_of_mem_toDigits (by decide) (by decide) hc
    have hzeros : ∀ c ∈ List.replicate zeros '0' ++ d, c.isDigit = true := by
      intro c hc
      rcases List.mem_append.mp hc with hc | hc
      · rw [List.eq_of_mem_replicate hc]
        decide
      · exact hd c hc
    -- host and port are told apart by the last colon, in what was asked for and in what is stored
    obtain ⟨rfl, rfl⟩ := split_last_colon hport hzeros hasked
    obtain ⟨rfl, rfl⟩ := split_last_colon hdigits hd hstored
    obtain ⟨-, hno, hend, hmap⟩ := readCString_eq_some.mp hu
    -- the first zero is in the array
    have hlen : u.length < kMaxHostnameLen := by
      by_contra hge
      refine hno ?_
      rw [← hmap, List.mem_map]
      exact ⟨i, List.mem_range'_1.mpr (by omega), hzero⟩
    refine ⟨?_, hno, hlen, ?_⟩
    · rw [← hmap]
      intro hcolon
      obtain ⟨j, hj, hjc⟩ := List.mem_map.mp hcolon
      rw [List.mem_range'_1] at hj
      exact cells_ne_colon _ _ _ _ (by omega) hjc
    · rw [Nat.ofDigitChars_append, Nat.ofDigitChars_replicate_zero, Nat.mul_zero,
        Nat.ofDigitChars_toDigits (by decide) (by decide)]
      exact hlt
  · rintro ⟨hcolon, hno, hlen, hval⟩
    obtain ⟨hhost, hafter⟩ := split_first_colon port hcolon
    rw [hafter, stoi_digits hne hport, if_pos (by omega)] at hv
    have hnum : (v % 2 ^ 16).toNat = Nat.ofDigitChars 10 port 0 := by
      rw [← Option.some.inj hv]
      omega
    rw [hhost, hnum]
    obtain ⟨zeros, hzeros⟩ := eq_zeros_toDigits hne hport
    have hstr := cStr_of_notMem hno
    refine ⟨⟨host.length, hlen, ?_⟩, ?_, host ++ ':' :: Nat.toDigits 10 _, ?_, host, zeros, _, ?_,
      by rw [← hzeros], rfl⟩
    · rw [cells_hostname _ _ _ _ hlen, hstr, List.getD_eq_default _ _ le_rfl]
    · intro a ha
      have hmem : a < (strcpyBytes host).length := List.mem_range.mp ha
      rw [strcpyBytes, hstr, List.length_append, List.length_singleton] at hmem
      omega
    · unfold ServerEndpoint.uri
      rw [readCString_storeServer _ _ _ hno hlen, smUdpPort_storeServer _ _ hval]
      rfl
    · intro c hc
      exact Nat.isDigit_of_mem_toDigits (by decide) (by decide) hc

/-- An Rpc on host `b`. -/
def uriCfg : SmCfg := ⟨⟨['b'], 31850, 0⟩, 0, 0, false⟩

/-- Leading zeros of the port do not matter. -/
theorem create_session_uri_zeros :
    createSessionSt uriCfg true ['a', ':', '0', '8', '0'] 1 5 (fun _ => nul) Sm.init
        = .created 0 (storeServer (fun _ => nul) ['a'] 80 1) ∧
      StoredWell ['a', ':', '0', '8', '0'] (storeServer (fun _ => nul) ['a'] 80 1) := by
  have hcreated : createSessionSt uriCfg true (['a'] ++ ':' :: ['0', '8', '0']) 1 5 (fun _ => nul)
      Sm.init = .created 0 (storeServer (fun _ => nul) ['a'] 80 1) :=
    createSessionSt_accepts (by decide) (by decide)
  have hport : ∀ c ∈ ['0', '8', '0'], c.isDigit = true := List.all_eq_true.mp (by decide)
  exact ⟨hcreated, (create_session_uri_iff (by decide) hport hcreated).mpr (by decide)⟩

/-- A host of 128 characters is accepted, and its zero is written behind the array; port 65616 is
stored as port 80. -/
theorem create_session_uri_overrun :
    (∃ s, createSessionSt uriCfg true (List.replicate 128 'a' ++ [':', '8', '0']) 1 5 (fun _ => nul)
        Sm.init = .created 0 s ∧ 128 ∈ s.copied ∧
      ¬ StoredWell (List.replicate 128 'a' ++ [':', '8', '0']) s) ∧
    ∃ s, createSessionSt uriCfg true ['a', ':', '6', '5', '6', '1', '6'] 1 5 (fun _ => nul)
        Sm.init = .created 0 s ∧ s.uri = some ['a', ':', '8', '0'] := by
  constructor
  · refine ⟨_, createSessionSt_accepts (p := 80) (by decide +kernel) (by decide +kernel), ?_, ?_⟩
    · decide +kernel
    · intro h
      exact absurd (h.inside 128 (by decide +kernel)) (by decide)
  · refine ⟨_, createSessionSt_accepts (p := 80) (by decide +kernel) (by decide +kernel), ?_⟩
    decide +kernel

end HuiRpc
