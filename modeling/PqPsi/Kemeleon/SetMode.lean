import PqPsi.Kemeleon.Preimages
import PqPsi.Lib.Calls
import PqPsi.Lib.Exceptions

/-!
# Changing the mode of a codec object

A mode is a 16-bit number, and three of them are supported. The objects keep
what they derive from the mode in fields of their own. `MlKem::setMode` stores the
mode before it looks up the sizes, so a call that throws has already changed
the mode and nothing else.
-/
namespace PqPsi.Kemeleon
open Lib.Calls Lib.Exceptions

section Objects

/-- The number of a mode. -/
def Mode.code : Mode → U16
  | .mlKem512 => 512
  | .mlKem768 => 768
  | .mlKem1024 => 1024

/-- The `switch` over a 16-bit mode, whose default throws. -/
def switchMode (mode : U16) : Except Err Mode :=
  if mode = 512 then .ok .mlKem512
  else if mode = 768 then .ok .mlKem768
  else if mode = 1024 then .ok .mlKem1024
  else .error "Unsupported ML-KEM mode"

/-- `MlKem`: the mode and the sizes that belong to it. -/
structure MlKem where
  mMode : U16
  mSizes : Sizes

def MlKem.make (mode : U16) : Except Err MlKem := do
  let sizes ← getSizes <$> switchMode mode
  return ⟨mode, sizes⟩

def MlKem.setMode (kem : MlKem) (mode : U16) : Outcome Err MlKem :=
  let kem := { kem with mMode := mode }
  match getSizes <$> switchMode mode with
  | .error e => (.error e, kem)
  | .ok sizes => (.ok (), { kem with mSizes := sizes })

/-- `Kemeleon`: the backend, and the tables of the codec. -/
structure Codec where
  mKem : MlKem
  mInfo : Info
  mPreimages : PreimageTable

def Codec.make (mode : U16) : Except Err Codec := do
  let kem ← MlKem.make mode
  let info ← makeInfo <$> switchMode mode
  return ⟨kem, info, makePreimageTable info.du⟩

def Codec.setMode (codec : Codec) (mode : U16) : Outcome Err Codec :=
  let (result, kem) := codec.mKem.setMode mode
  let codec := { codec with mKem := kem }
  match result with
  | .error e => (.error e, codec)
  | .ok () =>
    match makeInfo <$> switchMode mode with
    | .error e => (.error e, codec)
    | .ok info =>
      let codec := { codec with mInfo := info }
      (.ok (), { codec with mPreimages := makePreimageTable info.du })

def Codec.mode (codec : Codec) : U16 := codec.mKem.mMode

def Codec.sizes (codec : Codec) : Sizes := codec.mKem.mSizes

end Objects

section Modes

/-- One of the three modes that the `switch` knows. -/
def Supported (mode : U16) : Prop := ∃ m : Mode, mode = m.code

@[simp] theorem switchMode_code (m : Mode) : switchMode m.code = .ok m := by
  cases m <;> decide

theorem switchMode_of_not_supported {mode : U16} (h : ¬ Supported mode) :
    switchMode mode = .error "Unsupported ML-KEM mode" := by
  have h512 : mode ≠ 512 := fun he => h ⟨.mlKem512, he⟩
  have h768 : mode ≠ 768 := fun he => h ⟨.mlKem768, he⟩
  have h1024 : mode ≠ 1024 := fun he => h ⟨.mlKem1024, he⟩
  rw [switchMode, if_neg h512, if_neg h768, if_neg h1024]

end Modes

section Backend

/-- The object of a supported mode. -/
def MlKem.of (m : Mode) : MlKem := ⟨m.code, getSizes m⟩

/-- Mode and sizes describe one and the same supported mode. -/
def MlKem.Consistent (kem : MlKem) : Prop := ∃ m : Mode, kem = MlKem.of m

theorem MlKem.setMode_code (kem : MlKem) (m : Mode) : kem.setMode m.code = (.ok (), MlKem.of m) := by
  rw [MlKem.setMode, switchMode_code]
  rfl

theorem MlKem.setMode_of_not_supported (kem : MlKem) {mode : U16} (h : ¬ Supported mode) :
    kem.setMode mode = (.error "Unsupported ML-KEM mode", { kem with mMode := mode }) := by
  rw [MlKem.setMode, switchMode_of_not_supported h]
  rfl

theorem MlKem.setMode_intact_iff (kem : MlKem) (mode : U16) :
    ((kem.setMode mode).2.Consistent ∧ Unchanged kem (kem.setMode mode)) ↔ Supported mode := by
  constructor
  · rintro ⟨⟨m, hm⟩, -⟩
    by_contra hmode
    rw [kem.setMode_of_not_supported hmode] at hm
    exact hmode ⟨m, congrArg MlKem.mMode hm⟩
  · rintro ⟨m, rfl⟩
    rw [kem.setMode_code m]
    exact ⟨⟨m, rfl⟩, fun h => absurd rfl h⟩

theorem MlKem.consistent_of_make {mode : U16} {kem : MlKem} (h : MlKem.make mode = .ok kem) :
    kem.Consistent := by
  by_cases hmode : Supported mode
  · obtain ⟨m, rfl⟩ := hmode
    rw [MlKem.make, switchMode_code] at h
    exact ⟨m, (Except.ok.inj h).symm⟩
  · rw [MlKem.make, switchMode_of_not_supported hmode] at h
    exact absurd h (by simp [Functor.map, Except.map])

end Backend

section Codec

/-- The object of a supported mode. -/
def Codec.of (m : Mode) : Codec := ⟨MlKem.of m, makeInfo m, makePreimageTable (makeInfo m).du⟩

/-- Mode, sizes, `Info` and preimage table describe one and the same supported mode. -/
def Codec.Consistent (codec : Codec) : Prop :=
  ∃ m : Mode, codec.mode = m.code ∧ codec.sizes = getSizes m ∧ codec.mInfo = makeInfo m ∧
    codec.mPreimages = makePreimageTable (makeInfo m).du

/-- A supported mode repairs whatever an earlier call has left. -/
theorem Codec.setMode_code (codec : Codec) (m : Mode) :
    codec.setMode m.code = (.ok (), Codec.of m) := by
  simp only [Codec.setMode, MlKem.setMode_code, switchMode_code]
  rfl

theorem Codec.setMode_of_not_supported (codec : Codec) {mode : U16} (h : ¬ Supported mode) :
    codec.setMode mode = (.error "Unsupported ML-KEM mode",
      { codec with mKem := { codec.mKem with mMode := mode } }) := by
  simp only [Codec.setMode, MlKem.setMode_of_not_supported _ h]

theorem Codec.setMode_intact_iff (codec : Codec) (mode : U16) :
    ((codec.setMode mode).2.Consistent ∧ Unchanged codec (codec.setMode mode)) ↔
      Supported mode := by
  constructor
  · rintro ⟨⟨m, hm, -⟩, -⟩
    by_contra hmode
    rw [codec.setMode_of_not_supported hmode] at hm
    exact hmode ⟨m, hm⟩
  · rintro ⟨m, rfl⟩
    rw [codec.setMode_code m]
    exact ⟨⟨m, rfl, rfl, rfl, rfl⟩, fun h => absurd rfl h⟩

theorem Codec.consistent_of_make {mode : U16} {codec : Codec} (h : Codec.make mode = .ok codec) :
    codec.Consistent := by
  by_cases hmode : Supported mode
  · obtain ⟨m, rfl⟩ := hmode
    rw [Codec.make, MlKem.make, switchMode_code] at h
    obtain rfl := Except.ok.inj h
    exact ⟨m, rfl, rfl, rfl, rfl⟩
  · rw [Codec.make, MlKem.make, switchMode_of_not_supported hmode] at h
    exact absurd h (by simp [Functor.map, Except.map])

end Codec

/-- A sequence of mode changes, on either object, is intact exactly when it asks for supported
modes only. -/
theorem setMode_calls_intact_iff (mode₀ : U16) {kem : MlKem} {codec : Codec}
    (hkem : MlKem.make mode₀ = .ok kem) (hcodec : Codec.make mode₀ = .ok codec) (modes : List U16) :
    (Intact MlKem.setMode MlKem.Consistent kem modes ↔ ∀ mode ∈ modes, Supported mode) ∧
      (Intact Codec.setMode Codec.Consistent codec modes ↔ ∀ mode ∈ modes, Supported mode) :=
  ⟨intact_iff (fun s mode _ => s.setMode_intact_iff mode) modes (MlKem.consistent_of_make hkem),
    intact_iff (fun s mode _ => s.setMode_intact_iff mode) modes (Codec.consistent_of_make hcodec)⟩

/-- From ML-KEM-512 to 1024 and on to 768. -/
theorem setMode_calls_intact_512 :
    (Intact MlKem.setMode MlKem.Consistent (MlKem.of .mlKem512) [1024, 768] ↔
        ∀ mode ∈ [1024, 768], Supported mode) ∧
      (Intact Codec.setMode Codec.Consistent (Codec.of .mlKem512) [1024, 768] ↔
        ∀ mode ∈ [1024, 768], Supported mode) :=
  setMode_calls_intact_iff 512 rfl rfl [1024, 768]

/-- An unsupported mode on a fresh object: the call throws, and the object reports that mode
with the sizes and tables of ML-KEM-512. -/
theorem setMode_zero_not_intact :
    (Codec.make 512 = .ok (Codec.of .mlKem512) ∧
      (Codec.of .mlKem512).setMode 0 = (.error "Unsupported ML-KEM mode",
        { Codec.of .mlKem512 with mKem := ⟨0, getSizes .mlKem512⟩ })) ∧
      ¬ Intact Codec.setMode Codec.Consistent (Codec.of .mlKem512) [0] := by
  have hzero : ¬ Supported 0 := by
    rintro ⟨m, hm⟩
    cases m <;> exact absurd hm (by decide)
  refine ⟨⟨rfl, (Codec.of .mlKem512).setMode_of_not_supported hzero⟩, ?_⟩
  rintro ⟨hcall, -⟩
  exact hzero (((Codec.of .mlKem512).setMode_intact_iff 0).mp hcall)

end PqPsi.Kemeleon
