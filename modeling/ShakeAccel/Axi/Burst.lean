import Mathlib.Algebra.GroupWithZero.Nat
import Mathlib.Data.List.Basic
import ShakeAccel.Accel.Ram

/-!
# Requests and beats of the AXI channels

The address channels carry requests, each for a burst of `LEN + 1` beats. The controllers behind
`axi_mem_if_SP` take a burst as consecutive words from the request's word address on, whatever its
size and burst type. The payloads hold the fields that the controllers read or drive.
-/

namespace ShakeAccel.Axi

variable {m i u : Nat}

/-- A request on channel AW or AR. -/
structure AddrReq (i u : Nat) where
  id : BitVec i
  addr : BitVec 32
  len : BitVec 8
  user : BitVec u
deriving DecidableEq

/-- A beat on channel W. -/
structure WBeat where
  data : Word
  strb : BitVec 4
  last : Bool
deriving DecidableEq

/-- A response on channel B. -/
structure BResp (i u : Nat) where
  id : BitVec i
  resp : BitVec 2
  user : BitVec u
deriving DecidableEq

/-- A beat on channel R. -/
structure RBeat (i u : Nat) where
  id : BitVec i
  data : Word
  resp : BitVec 2
  last : Bool
  user : BitVec u
deriving DecidableEq

/-- `OKAY` of `axi_bus.sv`. -/
def OKAY : BitVec 2 := 0b00

namespace AddrReq

/-- `AWADDR_i[MEM_ADDR_WIDTH+OFFSET_BIT-1 : OFFSET_BIT]`: the word address in `m` bits. -/
def memAddr (m : Nat) (a : AddrReq i u) : BitVec m := a.addr.extractLsb' 2 m

/-- The number of beats of the burst. -/
def beats (a : AddrReq i u) : Nat := a.len.toNat + 1

/-- The word address of each beat. -/
def addrs (m : Nat) (a : AddrReq i u) : List (BitVec m) :=
  (List.range a.beats).map fun j => a.memAddr m + BitVec.ofNat m j

/-- The response to the burst. -/
def bResp (a : AddrReq i u) : BResp i u := ⟨a.id, OKAY, a.user⟩

/-- The beats of the answer to a read burst, as functions of the data read. -/
def rBeats (a : AddrReq i u) : List (Word → RBeat i u) :=
  (List.range a.beats).map fun j data => ⟨a.id, data, OKAY, decide (j = a.len.toNat), a.user⟩

end AddrReq

/-- The number of beats of a list of bursts. -/
def totalBeats (as : List (AddrReq i u)) : Nat := (as.map AddrReq.beats).sum

@[simp] theorem totalBeats_append (as bs : List (AddrReq i u)) :
    totalBeats (as ++ bs) = totalBeats as + totalBeats bs := by
  rw [totalBeats, List.map_append, List.sum_append, totalBeats, totalBeats]

@[simp] theorem totalBeats_singleton (a : AddrReq i u) : totalBeats [a] = a.beats := by
  rw [totalBeats, List.map_singleton, List.sum_singleton]

theorem totalBeats_mono {as bs : List (AddrReq i u)} (h : as <+: bs) :
    totalBeats as ≤ totalBeats bs := by
  obtain ⟨t, rfl⟩ := h
  rw [totalBeats_append]
  exact Nat.le_add_right _ _

/-- A list with one entry for each beat of each burst. -/
theorem length_flatMap_beats {α : Type*} {f : AddrReq i u → List α}
    (hf : ∀ a, (f a).length = a.beats) (as : List (AddrReq i u)) :
    (as.flatMap f).length = totalBeats as := by
  rw [List.length_flatMap, totalBeats]
  exact congrArg List.sum (List.map_congr_left fun a _ => hf a)

/-- The entry for beat `j` of the last burst. -/
theorem getElem?_flatMap_beats {α : Type*} {f : AddrReq i u → List α}
    (hf : ∀ a, (f a).length = a.beats) (as : List (AddrReq i u)) (a : AddrReq i u) (j : Nat) :
    ((as ++ [a]).flatMap f)[totalBeats as + j]? = (f a)[j]? := by
  rw [List.flatMap_append, List.flatMap_singleton, List.getElem?_append_right
    (by rw [length_flatMap_beats hf]; exact Nat.le_add_right _ _), length_flatMap_beats hf,
    Nat.add_sub_cancel_left]

@[simp] theorem length_addrs (a : AddrReq i u) : (a.addrs m).length = a.beats := by
  rw [AddrReq.addrs, List.length_map, List.length_range]

@[simp] theorem length_rBeats (a : AddrReq i u) : a.rBeats.length = a.beats := by
  rw [AddrReq.rBeats, List.length_map, List.length_range]

theorem AddrReq.lt_beats {a : AddrReq i u} {j : Nat} (hj : j ≤ a.len.toNat) : j < a.beats :=
  Nat.lt_succ_of_le hj

theorem getElem?_addrs (a : AddrReq i u) {j : Nat} (hj : j ≤ a.len.toNat) :
    (a.addrs m)[j]? = some (a.memAddr m + BitVec.ofNat m j) := by
  rw [AddrReq.addrs, List.getElem?_map, List.getElem?_range (AddrReq.lt_beats hj),
    Option.map_some]

theorem getElem?_rBeats (a : AddrReq i u) {j : Nat} (hj : j ≤ a.len.toNat) :
    a.rBeats[j]? = some fun data => ⟨a.id, data, OKAY, decide (j = a.len.toNat), a.user⟩ := by
  rw [AddrReq.rBeats, List.getElem?_map, List.getElem?_range (AddrReq.lt_beats hj),
    Option.map_some]

/-! ## The burst counter of the controllers -/

/-- The comparison of the length register with `CountBurst_CS`. -/
theorem len_eq_iff (len : BitVec 8) (count : BitVec 9) :
    len.setWidth 9 = count ↔ count.toNat = len.toNat := by
  rw [← BitVec.toNat_inj, BitVec.toNat_setWidth_of_le (by decide)]
  exact eq_comm

theorem toNat_count_succ {len : BitVec 8} {count : BitVec 9} (h : count.toNat < len.toNat) :
    (count + 1).toNat = count.toNat + 1 := by
  have hlen := len.isLt
  rw [BitVec.toNat_add]
  exact Nat.mod_eq_of_lt (show count.toNat + 1 < 2 ^ 9 by omega)

end ShakeAccel.Axi
