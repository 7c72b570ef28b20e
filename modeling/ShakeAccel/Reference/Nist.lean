import ShakeAccel.Reference.Agree

/-!
# The hash interface (`KeccakNISTInterface.c`)

`Init`, `Update`, `Final` and `Hash` on top of the sponge object. A message whose length is not a
multiple of 8 has its last bits at the most significant end of the last byte; `Update` moves them to
the least significant end. `Hash` is defined for every length of the message (`hash_eq`).
-/

namespace ShakeAccel.Reference.Nist

open BitSponge

/-! ## The code -/

/-- `HashReturn`. -/
inductive HashReturn where
  | SUCCESS
  | FAIL
  | BAD_HASHLEN
  deriving DecidableEq, Repr

/-- The conversion of the value of `Absorb` or `Squeeze` to a `HashReturn`. -/
def HashReturn.ofCode : Nat → HashReturn
  | 0 => .SUCCESS
  | 1 => .FAIL
  | _ => .BAD_HASHLEN

/-- `hashState`. -/
abbrev HashState := SpongeState

/-- `Init`: the value it returns and the object after. -/
def init (state : HashState) (hashbitlen : Int) : HashReturn × HashState :=
  let ready (rate capacity : Nat) : HashReturn × HashState :=
    (.SUCCESS, { (initSponge state rate capacity).2 with fixedOutputLength := hashbitlen.toNat })
  if hashbitlen = 0 then ready 1024 576
  else if hashbitlen = 224 then ready 1152 448
  else if hashbitlen = 256 then ready 1088 512
  else if hashbitlen = 384 then ready 832 768
  else if hashbitlen = 512 then ready 576 1024
  else (.BAD_HASHLEN, state)

/-- `Update`. -/
def update (fuel : Nat) (state : HashState) (data : Ptr) (databitlen : Nat) :
    Option (HashReturn × HashState) :=
  if databitlen % 8 = 0 then
    (absorb fuel state data databitlen).map fun r => (.ofCode r.1, r.2)
  else
    match absorb fuel state data (databitlen - databitlen % 8) with
    | none => none
    | some (code, state) =>
      if HashReturn.ofCode code = .SUCCESS then
        -- the last partial byte is aligned to the least significant bits
        let lastByte := data (databitlen / 8) >>> (8 - databitlen % 8)
        (absorb fuel state (fun _ => lastByte) (databitlen % 8)).map fun r => (.ofCode r.1, r.2)
      else some (.ofCode code, state)

/-- `Final`: the value it returns, the bytes it writes and the object after. -/
def final (fuel : Nat) (state : HashState) : Option (HashReturn × List Byte × HashState) :=
  (squeeze fuel state state.fixedOutputLength).map fun r => (.ofCode r.1, r.2.1, r.2.2)

/-- `Hash`, with what its local object holds before `Init`: the value it returns and the bytes it
writes. -/
def hash (fuel : Nat) (state : HashState) (hashbitlen : Int) (data : Ptr) (databitlen : Nat) :
    Option (HashReturn × List Byte) :=
  if hashbitlen ≠ 224 ∧ hashbitlen ≠ 256 ∧ hashbitlen ≠ 384 ∧ hashbitlen ≠ 512 then
    some (.BAD_HASHLEN, [])
  else
    let r := init state hashbitlen
    if r.1 ≠ .SUCCESS then some (r.1, [])
    else
      match update fuel r.2 data databitlen with
      | none => none
      | some (result, state) =>
        if result ≠ .SUCCESS then some (result, [])
        else (final fuel state).map fun r => (r.1, r.2.1)

/-! ## Messages -/

/-- The bits of a message of `n` bits: those of the last byte that is not whole are at its most
significant end. -/
def msgBits (data : Ptr) (n : Nat) : List Bool :=
  bits data (n - n % 8) ++ bits (fun _ => data (n / 8) >>> (8 - n % 8)) (n % 8)

theorem length_msgBits (data : Ptr) (n : Nat) : (msgBits data n).length = n := by
  rw [msgBits, List.length_append, length_bits, length_bits]
  omega

theorem msgBits_of_mod_eq_zero (data : Ptr) {n : Nat} (h : n % 8 = 0) :
    msgBits data n = bits data n := by
  rw [msgBits, h, Nat.sub_zero, show bits _ 0 = [] from rfl, List.append_nil]

/-! ## The fields that the sponge does not use -/

theorem fixedOutputLength_absorbStep {data : Ptr} {len i i' : Nat} {st st' : SpongeState}
    (h : absorbStep data len st i = some (st', i')) :
    st'.fixedOutputLength = st.fixedOutputLength := by
  have hbytes : ∀ (d : Ptr) (n : Nat),
      (absorbBytes st d n).fixedOutputLength = st.fixedOutputLength := by
    intro d n
    simp only [absorbBytes]
    split <;> rfl
  unfold absorbStep at h
  split at h
  · cases h
    rfl
  · simp only at h
    -- the number of bits that the branch has chosen does not matter
    split at h
    all_goals
      split at h
      · cases h
      · split at h
        · cases h
          exact hbytes _ _
        · cases h
          exact hbytes _ _

theorem fixedOutputLength_absorbLoop {data : Ptr} {len fuel i : Nat} {st st' : SpongeState}
    (h : absorbLoop data len fuel st i = some st') :
    st'.fixedOutputLength = st.fixedOutputLength := by
  induction fuel generalizing st i with
  | zero => cases h
  | succ fuel ih =>
    rw [absorbLoop] at h
    split at h
    · split at h
      · next hstep => rw [ih h, fixedOutputLength_absorbStep hstep]
      · cases h
    · cases h
      rfl

/-- `Absorb` does not change the length that `Init` has set. -/
theorem fixedOutputLength_absorb {data : Ptr} {len fuel code : Nat} {st st' : SpongeState}
    (h : absorb fuel st data len = some (code, st')) :
    st'.fixedOutputLength = st.fixedOutputLength := by
  unfold absorb at h
  split at h
  · cases h
    rfl
  · split at h
    · cases h
      rfl
    · obtain ⟨s, hs, he⟩ := Option.map_eq_some_iff.1 h
      cases he
      exact fixedOutputLength_absorbLoop hs

/-! ## The calls -/

variable {r : SpongeRate}

/-- `Update` on an object that has absorbed whole bytes. -/
theorem update_eq {m : List Bool} {st : HashState} (h : Absorbing r m st) (hm : m.length % 8 = 0)
    (data : Ptr) {n fuel : Nat}
    (hret : AbsorbReturns r.bits (m.length % r.bits) (n - n % 8)) (hfuel : n < fuel) :
    ∃ st', update fuel st data n = some (.SUCCESS, st') ∧
      Absorbing r (m ++ msgBits data n) st' ∧ st'.fixedOutputLength = st.fixedOutputLength := by
  have hmax := r.le_max
  by_cases hn : n % 8 = 0
  · rw [hn, Nat.sub_zero] at hret
    obtain ⟨st', habs, h'⟩ := h.absorb hm data hret hfuel
    refine ⟨st', ?_, by rwa [msgBits_of_mod_eq_zero data hn], fixedOutputLength_absorb habs⟩
    rw [update, if_pos hn, habs]
    rfl
  · -- the whole bytes, then the aligned last byte
    obtain ⟨st₁, habs₁, h₁⟩ := h.absorb hm data hret (show n - n % 8 < fuel by omega)
    have hm₁ : (m ++ bits data (n - n % 8)).length % 8 = 0 := by
      rw [List.length_append, length_bits]
      omega
    have hlt := Nat.mod_lt (m ++ bits data (n - n % 8)).length r.pos
    obtain ⟨st₂, habs₂, h₂⟩ := h₁.absorb hm₁ (fun _ => data (n / 8) >>> (8 - n % 8))
      (by unfold AbsorbReturns; omega) (show n % 8 < fuel by omega)
    refine ⟨st₂, ?_, by rwa [msgBits, ← List.append_assoc],
      (fixedOutputLength_absorb habs₂).trans (fixedOutputLength_absorb habs₁)⟩
    rw [update, if_neg hn, habs₁]
    simp only [HashReturn.ofCode, if_true, habs₂]
    rfl

/-- `Update` fails after a partial byte. -/
theorem update_of_partialByte {m : List Bool} {st : HashState} (h : Absorbing r m st)
    (hm : m.length % 8 ≠ 0) (fuel : Nat) (data : Ptr) (n : Nat) :
    update fuel st data n = some (.FAIL, st) := by
  unfold update
  split
  · rw [h.absorb_of_partialByte hm]
    rfl
  · rw [h.absorb_of_partialByte hm]
    rfl

/-- `Squeeze` as a call of a session. -/
theorem squeeze_of_call {fuel n code : Nat} {out : List Byte} {st st' : SpongeState}
    (h : call fuel st (.squeeze n) = some ((code, out), st')) :
    squeeze fuel st n = some (code, out, st') := by
  rw [call] at h
  obtain ⟨⟨c, o, s⟩, hs, he⟩ := Option.map_eq_some_iff.1 h
  cases he
  exact hs

/-- `Squeeze` in the squeezing phase. -/
theorem squeeze_eq {m : List Bool} {k : Nat} {st : HashState} (h : Represents r (.squeezing m k) st)
    {n fuel : Nat} (hn : n % 8 = 0) (hfuel : n < fuel) :
    ∃ st', squeeze fuel st n = some (0, outputBytes r m k n, st') ∧
      Represents r (.squeezing m (k + n)) st' := by
  obtain ⟨st', hcall, h'⟩ := h.call (c := .squeeze n) trivial hfuel
  rw [Phase.answer_squeeze hn] at hcall
  rw [Phase.next_squeeze hn] at h'
  exact ⟨st', squeeze_of_call hcall, h'⟩

/-- `Final` writes the output of the length that `Init` has set. -/
theorem final_eq {m : List Bool} {st : HashState} (h : Absorbing r m st) {k fuel : Nat}
    (hk : st.fixedOutputLength = k) (hk8 : k % 8 = 0) (hfuel : k < fuel) :
    ∃ st', final fuel st = some (.SUCCESS, outputBytes r m 0 k, st') ∧
      Represents r (.squeezing m k) st' := by
  obtain ⟨st', hcall, h'⟩ := Represents.call (r := r) (p := .absorbing m) h
    (c := .squeeze k) trivial hfuel
  rw [Phase.answer_absorbing_squeeze, Phase.answer_squeeze hk8] at hcall
  rw [Phase.next_absorbing_squeeze, Phase.next_squeeze hk8, Nat.zero_add] at h'
  exact ⟨st', by rw [final, hk, squeeze_of_call hcall]; rfl, h'⟩

/-- The rates of the four hash lengths. -/
def hashRate (hashbitlen : Int) : Option SpongeRate :=
  if hashbitlen = 224 then some ⟨1152, by decide, by decide, by decide⟩
  else if hashbitlen = 256 then some ⟨1088, by decide, by decide, by decide⟩
  else if hashbitlen = 384 then some ⟨832, by decide, by decide, by decide⟩
  else if hashbitlen = 512 then some ⟨576, by decide, by decide, by decide⟩
  else none

/-- The absorbing phase with any `fixedOutputLength`. -/
theorem initSponge_fixedOutputLength (r : SpongeRate) (st : HashState) (n : Nat) :
    Absorbing r []
      { (initSponge st r.bits (1600 - r.bits)).2 with fixedOutputLength := n } := by
  have h := initSponge_absorbing r st
  exact ⟨h.rate, h.squeezing, h.bitsInQueue, h.state, h.queue, h.clear⟩

/-- The rate of the length 0, which leaves the output to calls of `Squeeze`. -/
def rate1024 : SpongeRate := ⟨1024, by decide, by decide, by decide⟩

/-- The rates that `Init` sets: that of the length 0 and those of the hash lengths. -/
def initRate (hashbitlen : Int) : Option SpongeRate :=
  if hashbitlen = 0 then some rate1024 else hashRate hashbitlen

theorem initRate_of_hashRate {hashbitlen : Int} (hr : hashRate hashbitlen = some r) :
    initRate hashbitlen = some r := by
  have h0 : hashbitlen ≠ 0 := by
    rintro rfl
    cases hr
  rwa [initRate, if_neg h0]

/-- `Init` starts the absorbing phase at the rate of the length. -/
theorem init_eq {hashbitlen : Int} (hr : initRate hashbitlen = some r) (st : HashState) :
    ∃ st', init st hashbitlen = (.SUCCESS, st') ∧ Absorbing r [] st' ∧
      st'.fixedOutputLength = hashbitlen.toNat ∧ hashbitlen.toNat % 8 = 0 := by
  have hstart := initSponge_fixedOutputLength r st
  unfold initRate hashRate at hr
  split at hr
  · next h => subst h; cases hr; exact ⟨_, rfl, hstart 0, rfl, rfl⟩
  split at hr
  · next h => subst h; cases hr; exact ⟨_, rfl, hstart 224, rfl, rfl⟩
  split at hr
  · next h => subst h; cases hr; exact ⟨_, rfl, hstart 256, rfl, rfl⟩
  split at hr
  · next h => subst h; cases hr; exact ⟨_, rfl, hstart 384, rfl, rfl⟩
  split at hr
  · next h => subst h; cases hr; exact ⟨_, rfl, hstart 512, rfl, rfl⟩
  · cases hr

/-- A length that `Hash` refuses. -/
theorem hashRate_eq_none {hashbitlen : Int} (hr : hashRate hashbitlen = none) :
    hashbitlen ≠ 224 ∧ hashbitlen ≠ 256 ∧ hashbitlen ≠ 384 ∧ hashbitlen ≠ 512 := by
  unfold hashRate at hr
  split at hr
  · cases hr
  split at hr
  · cases hr
  split at hr
  · cases hr
  split at hr
  · cases hr
  · exact ⟨by assumption, by assumption, by assumption, by assumption⟩

/-- What `Hash` returns and writes. -/
def hashOf (hashbitlen : Int) (data : Ptr) (databitlen : Nat) : HashReturn × List Byte :=
  match hashRate hashbitlen with
  | some r => (.SUCCESS, outputBytes r (msgBits data databitlen) 0 hashbitlen.toNat)
  | none => (.BAD_HASHLEN, [])

/-- **`Hash` at every length.** For every message length, whatever its object holds before, `Hash`
returns and writes the sponge's output for the bits of the message, or refuses the hash length. -/
theorem hash_eq (hashbitlen : Int) (data : Ptr) (databitlen : Nat) :
    ∃ N, ∀ fuel ≥ N, ∀ st : HashState,
      hash fuel st hashbitlen data databitlen = some (hashOf hashbitlen data databitlen) := by
  refine ⟨databitlen + hashbitlen.toNat + 1, fun fuel hfuel st => ?_⟩
  unfold hash hashOf
  cases hr : hashRate hashbitlen with
  | none => rw [if_pos (hashRate_eq_none hr)]
  | some r =>
    have hlen : ¬(hashbitlen ≠ 224 ∧ hashbitlen ≠ 256 ∧ hashbitlen ≠ 384 ∧ hashbitlen ≠ 512) := by
      rintro ⟨h1, h2, h3, h4⟩
      rw [hashRate, if_neg h1, if_neg h2, if_neg h3, if_neg h4] at hr
      cases hr
    obtain ⟨st₁, hinit, h₁, hfixed, h8⟩ := init_eq (initRate_of_hashRate hr) st
    obtain ⟨st₂, hupdate, h₂, hfixed₂⟩ := update_eq h₁ (Nat.zero_mod 8) data
      (Or.inl (Nat.zero_mod _)) (show databitlen < fuel by omega)
    obtain ⟨st₃, hfinal, -⟩ := final_eq h₂ (hfixed₂.trans hfixed) h8
      (show hashbitlen.toNat < fuel by omega)
    rw [if_neg hlen, hinit]
    simp only [ne_eq, not_true_eq_false, if_false, hupdate, hfinal]
    rfl

/-- Thirteen bits under SHA3-224's rate. -/
theorem hash_eq_partialByte : ∃ N, ∀ fuel ≥ N, ∀ st : HashState,
    hash fuel st 224 (fun _ => 0xA8) 13 =
      some (.SUCCESS, outputBytes ⟨1152, by decide, by decide, by decide⟩
        (msgBits (fun _ => 0xA8) 13) 0 224) := by
  obtain ⟨N, h⟩ := hash_eq 224 (fun _ => 0xA8) 13
  exact ⟨N, fun fuel hfuel st => h fuel hfuel st⟩

/-! ## Sessions -/

/-- A sequence of calls of `Update`: what they return, and the object after. -/
def runUpdates (fuel : Nat) : HashState → List (Ptr × Nat) → Option (List HashReturn × HashState)
  | st, [] => some ([], st)
  | st, u :: us =>
    match update fuel st u.1 u.2 with
    | none => none
    | some (code, st) => (runUpdates fuel st us).map fun r => (code :: r.1, r.2)

/-- `Init`, calls of `Update` and `Final`: what the calls of `Update` return, and what `Final`
returns and writes. -/
def session (fuel : Nat) (st : HashState) (hashbitlen : Int) (us : List (Ptr × Nat)) :
    Option (List HashReturn × HashReturn × List Byte) :=
  match runUpdates fuel (init st hashbitlen).2 us with
  | none => none
  | some (codes, st) => (final fuel st).map fun r => (codes, r.1, r.2.1)

/-- The message after a call of `Update`. -/
def nextMessage (m : List Bool) (u : Ptr × Nat) : List Bool :=
  if m.length % 8 = 0 then m ++ msgBits u.1 u.2 else m

/-- What a call of `Update` returns. -/
def updateCode (m : List Bool) : HashReturn := if m.length % 8 = 0 then .SUCCESS else .FAIL

/-- The calls of `Update` that return. -/
def UpdateReturns (r : SpongeRate) (m : List Bool) (u : Ptr × Nat) : Prop :=
  m.length % 8 = 0 → AbsorbReturns r.bits (m.length % r.bits) (u.2 - u.2 % 8)

/-- One call of `Update` in a session. -/
theorem update_step {m : List Bool} {st : HashState} (h : Absorbing r m st) {u : Ptr × Nat}
    (hret : UpdateReturns r m u) {fuel : Nat} (hfuel : u.2 < fuel) :
    ∃ st', update fuel st u.1 u.2 = some (updateCode m, st') ∧
      Absorbing r (nextMessage m u) st' ∧ st'.fixedOutputLength = st.fixedOutputLength := by
  unfold updateCode nextMessage
  by_cases hm : m.length % 8 = 0
  · rw [if_pos hm, if_pos hm]
    exact update_eq h hm u.1 (hret hm) hfuel
  · rw [if_neg hm, if_neg hm]
    exact ⟨st, update_of_partialByte h hm fuel u.1 u.2, h, rfl⟩

theorem runUpdates_eq {m : List Bool} {st : HashState} (h : Absorbing r m st)
    {us : List (Ptr × Nat)} (hus : Machine.Along nextMessage (UpdateReturns r) m us) {fuel : Nat}
    (hfuel : ∀ u ∈ us, u.2 < fuel) :
    ∃ st', runUpdates fuel st us =
        some (Machine.collect nextMessage (fun m _ => [updateCode m]) m us, st') ∧
      Absorbing r (Machine.run nextMessage m us) st' ∧
      st'.fixedOutputLength = st.fixedOutputLength := by
  induction us generalizing m st with
  | nil => exact ⟨st, rfl, h, rfl⟩
  | cons u us ih =>
    obtain ⟨st₁, hupdate, h₁, hfixed₁⟩ := update_step h hus.1 (hfuel u (.head _))
    obtain ⟨st₂, hrun, h₂, hfixed₂⟩ := ih h₁ hus.2 fun v hv => hfuel v (.tail _ hv)
    refine ⟨st₂, ?_, h₂, hfixed₂.trans hfixed₁⟩
    rw [runUpdates, hupdate]
    simp only [hrun]
    rfl

/-- More iterations allowed do not change what `Update` does. -/
theorem update_mono {st : HashState} {data : Ptr} {n fuel fuel' : Nat}
    {res : HashReturn × HashState} (h : update fuel st data n = some res) (hle : fuel ≤ fuel') :
    update fuel' st data n = some res := by
  unfold update at h ⊢
  split at h
  · next hn =>
    obtain ⟨res₁, habs, he⟩ := Option.map_eq_some_iff.1 h
    rw [if_pos hn, absorb_mono habs hle, Option.map_some, he]
  · next hn =>
    rw [if_neg hn]
    split at h
    · cases h
    · next habs =>
      rw [absorb_mono habs hle]
      split at h
      · next hcode =>
        obtain ⟨res₂, habs₂, he⟩ := Option.map_eq_some_iff.1 h
        simp only [hcode, if_true, absorb_mono habs₂ hle, Option.map_some, he]
      · next hcode =>
        simp only [hcode, if_false]
        exact h

/-- A call of `Update` whose whole bytes `Absorb` never takes does not return. -/
theorem update_eq_none {m : List Bool} {st : HashState} (h : Absorbing r m st)
    {u : Ptr × Nat} (hret : ¬UpdateReturns r m u) (fuel : Nat) :
    update fuel st u.1 u.2 = none := by
  obtain ⟨hm, hret⟩ := Classical.not_imp.1 hret
  have habs := h.absorb_eq_none hm u.1 hret fuel
  unfold update
  split
  · next hn =>
    rw [hn, Nat.sub_zero] at habs
    rw [habs, Option.map_none]
  · rw [habs]

/-- A session with a call of `Update` that does not return. -/
theorem runUpdates_eq_none {m : List Bool} {st : HashState} (h : Absorbing r m st)
    {us : List (Ptr × Nat)} (hus : ¬Machine.Along nextMessage (UpdateReturns r) m us)
    (fuel : Nat) : runUpdates fuel st us = none := by
  induction us generalizing m st with
  | nil => exact absurd trivial hus
  | cons u us ih =>
    by_cases hret : UpdateReturns r m u
    · cases hu : update fuel st u.1 u.2 with
      | none => rw [runUpdates, hu]
      | some res =>
        -- the call that returns leads to the next object, as it would with more iterations
        obtain ⟨st₁, hupdate, h₁, -⟩ := update_step h hret (show u.2 < fuel + u.2 + 1 by omega)
        have hres := update_mono hu (show fuel ≤ fuel + u.2 + 1 by omega)
        rw [hupdate] at hres
        cases hres
        rw [runUpdates, hu]
        simp only [ih h₁ fun halong => hus ⟨hret, halong⟩, Option.map_none]
    · rw [runUpdates, update_eq_none h hret]

/-- A session whose calls return, with enough iterations for each of them. -/
theorem session_eq {hashbitlen : Int} (hr : initRate hashbitlen = some r) (st : HashState)
    {us : List (Ptr × Nat)} (hus : Machine.Along nextMessage (UpdateReturns r) [] us) {fuel : Nat}
    (hfuel : ∀ u ∈ us, u.2 < fuel) (hlen : hashbitlen.toNat < fuel) :
    session fuel st hashbitlen us =
      some (Machine.collect nextMessage (fun m _ => [updateCode m]) [] us, .SUCCESS,
        outputBytes r (Machine.run nextMessage [] us) 0 hashbitlen.toNat) := by
  obtain ⟨st₁, hinit, h₁, hfixed, h8⟩ := init_eq hr st
  obtain ⟨st₂, hrun, h₂, hfixed₂⟩ := runUpdates_eq h₁ hus hfuel
  obtain ⟨st₃, hfinal, -⟩ := final_eq h₂ (hfixed₂.trans hfixed) h8 hlen
  rw [session, hinit]
  simp only [hrun, hfinal]
  rfl

/-- A call of `Update` after a partial byte leaves the object as the calls before it have. -/
theorem update_refused {hashbitlen : Int} (hr : initRate hashbitlen = some r) (st : HashState)
    {us : List (Ptr × Nat)} (hus : Machine.Along nextMessage (UpdateReturns r) [] us) {fuel : Nat}
    (hfuel : ∀ u ∈ us, u.2 < fuel) (hm : (Machine.run nextMessage [] us).length % 8 ≠ 0)
    (data : Ptr) (n : Nat) :
    ∃ codes st', runUpdates fuel (init st hashbitlen).2 us = some (codes, st') ∧
      update fuel st' data n = some (.FAIL, st') := by
  obtain ⟨st₁, hinit, h₁, -, -⟩ := init_eq hr st
  obtain ⟨st₂, hrun, h₂, -⟩ := runUpdates_eq h₁ hus hfuel
  exact ⟨_, st₂, by rw [hinit]; exact hrun, update_of_partialByte h₂ hm fuel data n⟩

/-- **A session of the hash interface.** A session returns exactly when each of its accepted calls
of `Update` does. Then the calls add their bits until one of them ends within a byte, the later ones
fail and change nothing, and `Final` writes the sponge's output for the message. -/
theorem nistSession_eq {hashbitlen : Int} (hr : initRate hashbitlen = some r) (st : HashState)
    (us : List (Ptr × Nat)) :
    ((∃ fuel, (session fuel st hashbitlen us).isSome) ↔
      Machine.Along nextMessage (UpdateReturns r) [] us) ∧
    (Machine.Along nextMessage (UpdateReturns r) [] us → ∃ N, ∀ fuel ≥ N,
      session fuel st hashbitlen us =
        some (Machine.collect nextMessage (fun m _ => [updateCode m]) [] us, .SUCCESS,
          outputBytes r (Machine.run nextMessage [] us) 0 hashbitlen.toNat) ∧
      ∀ pre u post, us = pre ++ u :: post → (Machine.run nextMessage [] pre).length % 8 ≠ 0 →
        ∃ codes st', runUpdates fuel (init st hashbitlen).2 pre = some (codes, st') ∧
          update fuel st' u.1 u.2 = some (.FAIL, st')) := by
  obtain ⟨N, hN⟩ := exists_bound Prod.snd us
  refine ⟨⟨?_, fun hus => ?_⟩, fun hus => ⟨max N hashbitlen.toNat + 1, fun fuel hfuel =>
    ⟨session_eq hr st hus (fun u hu => ?_) (by omega), ?_⟩⟩⟩
  · rintro ⟨fuel, hsome⟩
    by_contra hus
    obtain ⟨st₁, hinit, h₁, -, -⟩ := init_eq hr st
    rw [session, hinit, runUpdates_eq_none h₁ hus] at hsome
    cases hsome
  · refine ⟨max N hashbitlen.toNat + 1, ?_⟩
    rw [session_eq hr st hus (fun u hu => ?_) (by omega)]
    · rfl
    · have := hN u hu
      omega
  · have := hN u hu
    omega
  · rintro pre u post rfl hm
    refine update_refused hr st (Machine.along_append.1 hus).1 (fun v hv => ?_) hm u.1 u.2
    have := hN v (List.mem_append_left _ hv)
    omega

/-- Two bytes, five bits, a byte that is refused; and under the length 0 a byte, then `2^32` bits
that are never absorbed. -/
theorem nistSession_eq_refused :
    (∃ N, ∀ fuel ≥ N, session fuel uninitialised 256
        [(fun _ => 0x41, 16), (fun _ => 0xA8, 5), (fun _ => 0x42, 8)] =
      some ([.SUCCESS, .SUCCESS, .FAIL], .SUCCESS,
        outputBytes ⟨1088, by decide, by decide, by decide⟩
          (msgBits (fun _ => 0x41) 16 ++ msgBits (fun _ => 0xA8) 5) 0 256)) ∧
    ¬∃ fuel, (session fuel uninitialised 0 [(fun _ => 0x41, 8), (fun _ => 0, 2 ^ 32)]).isSome := by
  constructor
  · have hus : Machine.Along nextMessage (UpdateReturns ⟨1088, by decide, by decide, by decide⟩) []
        [(fun _ => 0x41, 16), (fun _ => 0xA8, 5), (fun _ => 0x42, 8)] :=
      ⟨fun _ => by decide, fun _ => by decide, fun h => absurd h (by decide), trivial⟩
    have hr : initRate 256 = some ⟨1088, by decide, by decide, by decide⟩ := rfl
    obtain ⟨N, h⟩ := (nistSession_eq hr uninitialised _).2 hus
    exact ⟨N, fun fuel hfuel => (h fuel hfuel).1⟩
  · intro hsome
    have hr : initRate 0 = some rate1024 := rfl
    have hus := (nistSession_eq hr uninitialised _).1.1 hsome
    exact absurd (hus.2.1 (by decide)) (by decide)

end ShakeAccel.Reference.Nist
