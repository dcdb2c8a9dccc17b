import DocumentShare.Proofs.Authority.Encoding
import DocumentShare.Proofs.Naming.Canonical

/-!
# One encoding for one capability

Packs, capabilities and tokens are read from the bytes that write them and from no others
(`canonical_encodings`). So whoever tells them apart by their bytes tells them apart.
-/

namespace DocumentShare

open Decoder

/-! ### Areas -/

/-- The flag says whether an end follows. -/
theorem TimeRange.consumes_decode : decode.Consumes fun b r => b = r.encode := by
  unfold decode
  apply Consumes.word64.field
  intro start
  apply Consumes.byte.field
  intro flag
  split
  · next absent =>
    apply Consumes.pure
    simp [encode, absent]
  · split
    · next present =>
      apply Consumes.word64.field
      intro stop
      unfold closed
      split
      · next r made =>
        split at made
        · cases made
        · cases made
          apply Consumes.pure
          simp [encode, present]
      · exact .reject _
    · exact .reject _

namespace Area

theorem consumes_decodeComponent :
    decodeComponent.Consumes fun b c => b = Bytes.ofNat 2 c.length ++ c := by
  unfold decodeComponent
  apply (Consumes.number 2).field
  intro length
  apply (Consumes.take length).mono
  intro b c ⟨same, exact⟩
  rw [same, exact]

theorem consumes_decodePath : decodePath.Consumes fun b p => b = encodePath p := by
  unfold decodePath
  apply Consumes.byte.field
  intro count
  apply (consumes_decodeComponent.replicate count.toNat).field
  intro components
  split
  · next p made =>
    have listed := Path.components_of_ofComponents made
    have counted : p.count.toUInt8 = count := by
      rw [Path.count, listed, components.2]
      simp
    apply Consumes.pure
    simp [encodePath, listed, counted]
  · exact .reject _

theorem consumes_decodeSubspace : decodeSubspace.Consumes fun b s => b = s.encode := by
  unfold decodeSubspace
  apply Consumes.byte.field
  intro flag
  split
  · next any =>
    apply Consumes.pure
    simp [Subspace.encode, any]
  · split
    · next one =>
      apply Identifier.consumes_decode.field
      intro identity
      apply Consumes.pure
      simp [Subspace.encode, one]
    · exact .reject _

theorem consumes_decode : decode.Consumes fun b a => b = a.encode := by
  unfold decode
  apply consumes_decodeSubspace.field
  intro subspace
  apply consumes_decodePath.field
  intro path
  apply TimeRange.consumes_decode.field
  intro times
  apply Consumes.pure
  simp [encode]

end Area

/-! ### Chains and capabilities -/

namespace Chain

variable {Grant : Type} {grant : Decoder Grant} {write : Grant → Bytes}

theorem consumes_decodeStep (consumes : grant.Consumes fun b g => b = write g) :
    (decodeStep grant).Consumes fun b d => b = encodeStep write d := by
  unfold decodeStep
  apply consumes.field
  intro g
  apply Identifier.consumes_decode.field
  intro user
  apply (Consumes.block 64).field
  intro signature
  apply Consumes.pure
  simp [encodeStep]

/-- The first byte of a chain is the number of the steps that follow. -/
theorem consumes_decode (consumes : grant.Consumes fun b g => b = write g) :
    (decode grant).Consumes fun b c => b = c.1.encode write := by
  unfold decode
  apply Consumes.byte.field
  intro length
  apply ((consumes_decodeStep consumes).replicate length.toNat).field
  intro steps
  have counted : (Chain.length ⟨steps.1⟩).toUInt8 = length := by
    rw [Chain.length, steps.2]
    simp
  apply Consumes.pure
  simp [encode, counted]

end Chain

theorem AccessMode.consumes_decode : decode.Consumes fun b m => b = [m.byte] := by
  unfold decode
  apply Consumes.byte.field
  intro x
  split
  · next reads =>
    apply Consumes.pure
    simp [byte, reads]
  · split
    · next writes =>
      apply Consumes.pure
      simp [byte, writes]
    · exact .reject _

namespace Capability

theorem consumes_decodeRoot (kind : UInt8) :
    (decodeRoot kind).Consumes fun b root => b = root.encode ∧ root.kind = kind := by
  unfold decodeRoot
  split
  · next communal =>
    apply Consumes.pure
    simp [Root.encode, Root.kind, communal]
  · split
    · next owned =>
      apply (Consumes.block 64).field
      intro signature
      apply Consumes.pure
      simp [Root.encode, Root.kind, owned]
    · exact .reject _

theorem consumes_decode : decode.Consumes fun b c => b = c.encode := by
  unfold decode
  apply Consumes.byte.field
  intro kind
  apply AccessMode.consumes_decode.field
  intro mode
  apply Identifier.consumes_decode.field
  intro share
  apply Identifier.consumes_decode.field
  intro user
  apply (consumes_decodeRoot kind).bind
  intro root b ⟨written, sameKind⟩
  apply (Chain.consumes_decode Area.consumes_decode).field
  intro chain
  apply Consumes.pure
  simp [encode, written, sameKind]

end Capability

theorem SubspaceCapability.consumes_decode : decode.Consumes fun b c => b = c.encode := by
  have unit : (pure () : Decoder Unit).Consumes fun b _ => b = [] := .pure rfl
  unfold decode
  apply Identifier.consumes_decode.field
  intro share
  apply Identifier.consumes_decode.field
  intro user
  apply (Consumes.block 64).field
  intro signature
  apply (Chain.consumes_decode unit).field
  intro chain
  apply Consumes.pure
  simp [encode]

theorem Token.consumes_decode : decode.Consumes fun b t => b = t.encode := by
  unfold decode
  apply Capability.consumes_decode.field
  intro capability
  apply (Consumes.block 64).field
  intro signature
  apply Consumes.pure
  simp [encode]

/-! ### Packs -/

/-- The tag says which shape follows. -/
theorem Pack.consumes_decoder : decoder.Consumes fun b p => b = p.encode := by
  unfold decoder
  apply Consumes.byte.field
  intro tag
  split
  · next alone =>
    apply Capability.consumes_decode.field
    intro capability
    apply Consumes.pure
    simp [encode, alone]
  · split
    · next paired =>
      apply Capability.consumes_decode.field
      intro capability
      apply SubspaceCapability.consumes_decode.field
      intro subspace
      apply Consumes.pure
      simp [encode, paired]
    · split
      · next writes =>
        apply Capability.consumes_decode.field
        intro capability
        apply Consumes.pure
        simp [encode, writes]
      · exact .reject _

/-- A pack, a capability and a token have one encoding each, and are read from it alone unless a
step has an inverted time range. -/
theorem canonical_encodings :
    Canonical Pack.decode Pack.encode (·.capability.Upright) ∧
    Canonical (Decoder.runAll Capability.decode) Capability.encode Capability.Upright ∧
    Canonical (Decoder.runAll Token.decode) Token.encode (·.capability.Upright) := by
  have pack : Canonical Pack.decode Pack.encode (·.capability.Upright) :=
    .of_runAll Pack.reads_decoder Pack.consumes_decoder
  have capability : Canonical (Decoder.runAll Capability.decode) Capability.encode
      Capability.Upright := .of_runAll Capability.reads_decode Capability.consumes_decode
  have token : Canonical (Decoder.runAll Token.decode) Token.encode (·.capability.Upright) :=
    .of_runAll Token.reads_decode Token.consumes_decode
  exact ⟨pack, capability, token⟩

end DocumentShare
