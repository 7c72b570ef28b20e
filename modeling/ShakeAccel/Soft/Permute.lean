import Mathlib.Data.Nat.Basic

/-!
# The software permutation (`keccakf1600.c`)

The C state is an array of 25 `uint64_t` words. `keccakF1600StatePermute` copies it to 25
scalars, runs the loop body `permuteTwoRounds` for `round = 0, 2, ..., 22` and copies the scalars
back. The loop body is translated statement by statement, a `let` for each assignment, so that a
variable that is overwritten in place is a shadowed `let`.
-/

namespace ShakeAccel

/-- A `uint64_t` word of the state, and a lane of the VHDL state. -/
abbrev Lane := BitVec 64

/-- A `uint8_t` value. -/
abbrev Byte := BitVec 8

/-- The C type of the Keccak state, `uint64_t state[25]`. -/
abbrev State := Vector Lane 25

/-- `ROL(a, offset)`. -/
def rol (a : Lane) (offset : Nat) : Lane :=
  (a <<< offset) ^^^ (a >>> (64 - offset))

/-- `KeccakF_RoundConstants[NROUNDS]`. -/
def keccakFRoundConstants : Vector Lane 24 :=
  #v[0x0000000000000001, 0x0000000000008082, 0x800000000000808a, 0x8000000080008000,
    0x000000000000808b, 0x0000000080000001, 0x8000000080008081, 0x8000000000008009,
    0x000000000000008a, 0x0000000000000088, 0x0000000080008009, 0x000000008000000a,
    0x000000008000808b, 0x800000000000008b, 0x8000000000008089, 0x8000000000008003,
    0x8000000000008002, 0x8000000000000080, 0x000000000000800a, 0x800000008000000a,
    0x8000000080008081, 0x8000000000008080, 0x0000000080000001, 0x8000000080008008]

/-- The 25 scalars that hold the state between two iterations of the loop. -/
structure Scalars where
  (Aba Abe Abi Abo Abu : Lane)
  (Aga Age Agi Ago Agu : Lane)
  (Aka Ake Aki Ako Aku : Lane)
  (Ama Ame Ami Amo Amu : Lane)
  (Asa Ase Asi Aso Asu : Lane)

/-- `copyFromState(A, state)`. -/
def copyFromState (state : State) : Scalars where
  Aba := state[0]
  Abe := state[1]
  Abi := state[2]
  Abo := state[3]
  Abu := state[4]
  Aga := state[5]
  Age := state[6]
  Agi := state[7]
  Ago := state[8]
  Agu := state[9]
  Aka := state[10]
  Ake := state[11]
  Aki := state[12]
  Ako := state[13]
  Aku := state[14]
  Ama := state[15]
  Ame := state[16]
  Ami := state[17]
  Amo := state[18]
  Amu := state[19]
  Asa := state[20]
  Ase := state[21]
  Asi := state[22]
  Aso := state[23]
  Asu := state[24]

/-- `copyToState(state, A)`. -/
def copyToState (A : Scalars) : State :=
  #v[A.Aba, A.Abe, A.Abi, A.Abo, A.Abu,
    A.Aga, A.Age, A.Agi, A.Ago, A.Agu,
    A.Aka, A.Ake, A.Aki, A.Ako, A.Aku,
    A.Ama, A.Ame, A.Ami, A.Amo, A.Amu,
    A.Asa, A.Ase, A.Asi, A.Aso, A.Asu]

/-- One iteration of the loop of `KeccakF1600_StatePermute`: the rounds `round` (from the `A`
scalars to the `E` scalars) and `round + 1` (back to the `A` scalars). -/
def permuteTwoRounds (round : Nat) (A : Scalars) : Scalars :=
  let ⟨Aba, Abe, Abi, Abo, Abu,
    Aga, Age, Agi, Ago, Agu,
    Aka, Ake, Aki, Ako, Aku,
    Ama, Ame, Ami, Amo, Amu,
    Asa, Ase, Asi, Aso, Asu⟩ := A
  -- prepareTheta
  let BCa := Aba ^^^ Aga ^^^ Aka ^^^ Ama ^^^ Asa
  let BCe := Abe ^^^ Age ^^^ Ake ^^^ Ame ^^^ Ase
  let BCi := Abi ^^^ Agi ^^^ Aki ^^^ Ami ^^^ Asi
  let BCo := Abo ^^^ Ago ^^^ Ako ^^^ Amo ^^^ Aso
  let BCu := Abu ^^^ Agu ^^^ Aku ^^^ Amu ^^^ Asu
  -- thetaRhoPiChiIotaPrepareTheta(round  , A, E)
  let Da := BCu ^^^ rol BCe 1
  let De := BCa ^^^ rol BCi 1
  let Di := BCe ^^^ rol BCo 1
  let Do := BCi ^^^ rol BCu 1
  let Du := BCo ^^^ rol BCa 1
  let Aba := Aba ^^^ Da
  let BCa := Aba
  let Age := Age ^^^ De
  let BCe := rol Age 44
  let Aki := Aki ^^^ Di
  let BCi := rol Aki 43
  let Amo := Amo ^^^ Do
  let BCo := rol Amo 21
  let Asu := Asu ^^^ Du
  let BCu := rol Asu 14
  let Eba := BCa ^^^ ((~~~BCe) &&& BCi)
  let Eba := Eba ^^^ keccakFRoundConstants[round]!
  let Ebe := BCe ^^^ ((~~~BCi) &&& BCo)
  let Ebi := BCi ^^^ ((~~~BCo) &&& BCu)
  let Ebo := BCo ^^^ ((~~~BCu) &&& BCa)
  let Ebu := BCu ^^^ ((~~~BCa) &&& BCe)
  let Abo := Abo ^^^ Do
  let BCa := rol Abo 28
  let Agu := Agu ^^^ Du
  let BCe := rol Agu 20
  let Aka := Aka ^^^ Da
  let BCi := rol Aka 3
  let Ame := Ame ^^^ De
  let BCo := rol Ame 45
  let Asi := Asi ^^^ Di
  let BCu := rol Asi 61
  let Ega := BCa ^^^ ((~~~BCe) &&& BCi)
  let Ege := BCe ^^^ ((~~~BCi) &&& BCo)
  let Egi := BCi ^^^ ((~~~BCo) &&& BCu)
  let Ego := BCo ^^^ ((~~~BCu) &&& BCa)
  let Egu := BCu ^^^ ((~~~BCa) &&& BCe)
  let Abe := Abe ^^^ De
  let BCa := rol Abe 1
  let Agi := Agi ^^^ Di
  let BCe := rol Agi 6
  let Ako := Ako ^^^ Do
  let BCi := rol Ako 25
  let Amu := Amu ^^^ Du
  let BCo := rol Amu 8
  let Asa := Asa ^^^ Da
  let BCu := rol Asa 18
  let Eka := BCa ^^^ ((~~~BCe) &&& BCi)
  let Eke := BCe ^^^ ((~~~BCi) &&& BCo)
  let Eki := BCi ^^^ ((~~~BCo) &&& BCu)
  let Eko := BCo ^^^ ((~~~BCu) &&& BCa)
  let Eku := BCu ^^^ ((~~~BCa) &&& BCe)
  let Abu := Abu ^^^ Du
  let BCa := rol Abu 27
  let Aga := Aga ^^^ Da
  let BCe := rol Aga 36
  let Ake := Ake ^^^ De
  let BCi := rol Ake 10
  let Ami := Ami ^^^ Di
  let BCo := rol Ami 15
  let Aso := Aso ^^^ Do
  let BCu := rol Aso 56
  let Ema := BCa ^^^ ((~~~BCe) &&& BCi)
  let Eme := BCe ^^^ ((~~~BCi) &&& BCo)
  let Emi := BCi ^^^ ((~~~BCo) &&& BCu)
  let Emo := BCo ^^^ ((~~~BCu) &&& BCa)
  let Emu := BCu ^^^ ((~~~BCa) &&& BCe)
  let Abi := Abi ^^^ Di
  let BCa := rol Abi 62
  let Ago := Ago ^^^ Do
  let BCe := rol Ago 55
  let Aku := Aku ^^^ Du
  let BCi := rol Aku 39
  let Ama := Ama ^^^ Da
  let BCo := rol Ama 41
  let Ase := Ase ^^^ De
  let BCu := rol Ase 2
  let Esa := BCa ^^^ ((~~~BCe) &&& BCi)
  let Ese := BCe ^^^ ((~~~BCi) &&& BCo)
  let Esi := BCi ^^^ ((~~~BCo) &&& BCu)
  let Eso := BCo ^^^ ((~~~BCu) &&& BCa)
  let Esu := BCu ^^^ ((~~~BCa) &&& BCe)
  -- prepareTheta
  let BCa := Eba ^^^ Ega ^^^ Eka ^^^ Ema ^^^ Esa
  let BCe := Ebe ^^^ Ege ^^^ Eke ^^^ Eme ^^^ Ese
  let BCi := Ebi ^^^ Egi ^^^ Eki ^^^ Emi ^^^ Esi
  let BCo := Ebo ^^^ Ego ^^^ Eko ^^^ Emo ^^^ Eso
  let BCu := Ebu ^^^ Egu ^^^ Eku ^^^ Emu ^^^ Esu
  -- thetaRhoPiChiIotaPrepareTheta(round+1, E, A)
  let Da := BCu ^^^ rol BCe 1
  let De := BCa ^^^ rol BCi 1
  let Di := BCe ^^^ rol BCo 1
  let Do := BCi ^^^ rol BCu 1
  let Du := BCo ^^^ rol BCa 1
  let Eba := Eba ^^^ Da
  let BCa := Eba
  let Ege := Ege ^^^ De
  let BCe := rol Ege 44
  let Eki := Eki ^^^ Di
  let BCi := rol Eki 43
  let Emo := Emo ^^^ Do
  let BCo := rol Emo 21
  let Esu := Esu ^^^ Du
  let BCu := rol Esu 14
  let Aba := BCa ^^^ ((~~~BCe) &&& BCi)
  let Aba := Aba ^^^ keccakFRoundConstants[round + 1]!
  let Abe := BCe ^^^ ((~~~BCi) &&& BCo)
  let Abi := BCi ^^^ ((~~~BCo) &&& BCu)
  let Abo := BCo ^^^ ((~~~BCu) &&& BCa)
  let Abu := BCu ^^^ ((~~~BCa) &&& BCe)
  let Ebo := Ebo ^^^ Do
  let BCa := rol Ebo 28
  let Egu := Egu ^^^ Du
  let BCe := rol Egu 20
  let Eka := Eka ^^^ Da
  let BCi := rol Eka 3
  let Eme := Eme ^^^ De
  let BCo := rol Eme 45
  let Esi := Esi ^^^ Di
  let BCu := rol Esi 61
  let Aga := BCa ^^^ ((~~~BCe) &&& BCi)
  let Age := BCe ^^^ ((~~~BCi) &&& BCo)
  let Agi := BCi ^^^ ((~~~BCo) &&& BCu)
  let Ago := BCo ^^^ ((~~~BCu) &&& BCa)
  let Agu := BCu ^^^ ((~~~BCa) &&& BCe)
  let Ebe := Ebe ^^^ De
  let BCa := rol Ebe 1
  let Egi := Egi ^^^ Di
  let BCe := rol Egi 6
  let Eko := Eko ^^^ Do
  let BCi := rol Eko 25
  let Emu := Emu ^^^ Du
  let BCo := rol Emu 8
  let Esa := Esa ^^^ Da
  let BCu := rol Esa 18
  let Aka := BCa ^^^ ((~~~BCe) &&& BCi)
  let Ake := BCe ^^^ ((~~~BCi) &&& BCo)
  let Aki := BCi ^^^ ((~~~BCo) &&& BCu)
  let Ako := BCo ^^^ ((~~~BCu) &&& BCa)
  let Aku := BCu ^^^ ((~~~BCa) &&& BCe)
  let Ebu := Ebu ^^^ Du
  let BCa := rol Ebu 27
  let Ega := Ega ^^^ Da
  let BCe := rol Ega 36
  let Eke := Eke ^^^ De
  let BCi := rol Eke 10
  let Emi := Emi ^^^ Di
  let BCo := rol Emi 15
  let Eso := Eso ^^^ Do
  let BCu := rol Eso 56
  let Ama := BCa ^^^ ((~~~BCe) &&& BCi)
  let Ame := BCe ^^^ ((~~~BCi) &&& BCo)
  let Ami := BCi ^^^ ((~~~BCo) &&& BCu)
  let Amo := BCo ^^^ ((~~~BCu) &&& BCa)
  let Amu := BCu ^^^ ((~~~BCa) &&& BCe)
  let Ebi := Ebi ^^^ Di
  let BCa := rol Ebi 62
  let Ego := Ego ^^^ Do
  let BCe := rol Ego 55
  let Eku := Eku ^^^ Du
  let BCi := rol Eku 39
  let Ema := Ema ^^^ Da
  let BCo := rol Ema 41
  let Ese := Ese ^^^ De
  let BCu := rol Ese 2
  let Asa := BCa ^^^ ((~~~BCe) &&& BCi)
  let Ase := BCe ^^^ ((~~~BCi) &&& BCo)
  let Asi := BCi ^^^ ((~~~BCo) &&& BCu)
  let Aso := BCo ^^^ ((~~~BCu) &&& BCa)
  let Asu := BCu ^^^ ((~~~BCa) &&& BCe)
  ⟨Aba, Abe, Abi, Abo, Abu,
    Aga, Age, Agi, Ago, Agu,
    Aka, Ake, Aki, Ako, Aku,
    Ama, Ame, Ami, Amo, Amu,
    Asa, Ase, Asi, Aso, Asu⟩

/-- `KeccakF1600_StatePermute`: `for (round = 0; round < NROUNDS; round += 2)`. -/
def keccakF1600StatePermute (state : State) : State :=
  copyToState ((List.range' 0 12 2).foldl (fun A round => permuteTwoRounds round A)
    (copyFromState state))

end ShakeAccel
