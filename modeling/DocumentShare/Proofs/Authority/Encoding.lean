import DocumentShare.Authority.Pack
import DocumentShare.Proofs.Authority.Attenuation
import DocumentShare.Proofs.Naming.Encoding
import DocumentShare.Store.Document

/-!
# Encodings of capabilities and documents

Everything that is stored is read back as it was written, with one exception: a time range that ends
before it starts is written but refused by the reader. `Capability.Upright` says that no step grants
such a range, and `Document.decode_encode` that a document is then read back. A token that authorises
an entry is upright, because every range it passed through includes the time of the entry.
-/

namespace DocumentShare

open Decoder

/-! ### Areas -/

namespace TimeRange

/-- The range does not end before it starts. -/
def Upright (r : TimeRange) : Prop := ∀ stop, r.stop = some stop → r.start ≤ stop

theorem upright_of_includes {r : TimeRange} {timestamp : UInt64} (inside : r.includes timestamp) :
    r.Upright := by
  intro stop ends
  obtain ⟨after, before⟩ := includes_iff.mp inside
  exact UInt64.le_trans after (UInt64.le_of_lt (before stop ends))

theorem reads_decode (r : TimeRange) : decode.Reads r r.encode r.Upright := by
  obtain ⟨start, stop⟩ := r
  cases stop with
  | none =>
    have read : decode.Reads ⟨start, none⟩ (Bytes.ofWord start ++ ([0] ++ [])) (True ∧ True ∧ True) := by
      unfold decode
      refine (Reads.word64 start).bind ((Reads.byte 0).bind ?_)
      exact .pure _
    exact read.congr (by simp [encode]) (by simp [Upright])
  | some stop =>
    have read : decode.Reads ⟨start, some stop⟩
        (Bytes.ofWord start ++ ([1] ++ (Bytes.ofWord stop ++ [])))
        (True ∧ True ∧ True ∧ start ≤ stop) := by
      unfold decode
      refine (Reads.word64 start).bind ((Reads.byte 1).bind ?_)
      rw [if_neg (by decide), if_pos rfl]
      refine (Reads.word64 stop).bind ?_
      by_cases upright : start ≤ stop
      · rw [closed, if_neg (UInt64.not_lt.mpr upright)]
        exact (Reads.pure _).congr rfl (by simp [upright])
      · rw [closed, if_pos (UInt64.not_le.mp upright)]
        exact (Reads.reject _ _).congr rfl (by simp [upright])
    exact read.congr (by simp [encode]) (by simp [Upright])

/-- The reader refuses a range that ends before it starts. -/
theorem yields_decode : decode.Yields Upright := by
  refine (Yields.any _).bind fun start _ => (Yields.any _).bind fun flag _ => ?_
  split
  · exact .pure fun stop ends => by cases ends
  · split
    · refine (Yields.any _).bind fun stop _ => ?_
      by_cases inverted : stop < start
      · rw [closed, if_pos inverted]
        exact .reject _
      · rw [closed, if_neg inverted]
        refine .pure fun last ends => ?_
        cases ends
        exact UInt64.not_lt.mp inverted
    · exact .reject _

end TimeRange

namespace Area

theorem reads_decodeComponent {c : Bytes} (bound : c.length ≤ Path.maxLength) :
    decodeComponent.Reads c (Bytes.ofNat 2 c.length ++ c) True := by
  have small : c.length < 256 ^ 2 := by
    have : Path.maxLength = 64 := rfl
    omega
  exact ((Reads.number small).bind (.take c)).congr rfl (by simp)

theorem reads_decodePath (p : Path) : decodePath.Reads p (encodePath p) True := by
  have count : p.components.length = p.count.toUInt8.toNat := by
    have := p.fits.count
    simp only [Path.count, Path.maxCount, Nat.toUInt8, UInt8.toNat_ofNat'] at this ⊢
    omega
  have components := Reads.replicate (fun c member => reads_decodeComponent (p.fits.length c member))
    count
  have read : decodePath.Reads p
      ([p.count.toUInt8] ++ (p.components.flatMap (fun c => Bytes.ofNat 2 c.length ++ c) ++ []))
      (True ∧ (∀ c ∈ p.components, True) ∧ True) := by
    unfold decodePath
    refine (Reads.byte _).bind (components.bind ?_)
    rw [Path.ofComponents_components]
    exact .pure p
  exact read.congr (by simp [encodePath]) (by simp)

theorem reads_decodeSubspace (s : Subspace) : decodeSubspace.Reads s s.encode True := by
  cases s with
  | any =>
    have read : decodeSubspace.Reads .any ([0] ++ []) (True ∧ True) := by
      unfold decodeSubspace
      exact (Reads.byte 0).bind (.pure _)
    exact read.congr rfl (by simp)
  | of identity =>
    have read : decodeSubspace.Reads (.of identity) ([1] ++ (identity.encode ++ []))
        (True ∧ True ∧ True) := by
      unfold decodeSubspace
      refine (Reads.byte 1).bind ?_
      rw [if_neg (by decide), if_pos rfl]
      exact (Identifier.reads_decode identity).bind (.pure _)
    exact read.congr (by simp [Subspace.encode]) (by simp)

theorem reads_decode (a : Area) : decode.Reads a a.encode a.times.Upright := by
  have read : decode.Reads a
      (a.subspace.encode ++ (encodePath a.path ++ (a.times.encode ++ [])))
      (True ∧ True ∧ a.times.Upright ∧ True) := by
    unfold decode
    refine (reads_decodeSubspace a.subspace).bind ((reads_decodePath a.path).bind ?_)
    exact (TimeRange.reads_decode a.times).bind (.pure _)
  exact read.congr (by simp [encode]) (by simp)

theorem yields_decode : decode.Yields fun a => a.times.Upright := by
  refine (Yields.any _).bind fun _ _ => (Yields.any _).bind fun _ _ => ?_
  exact TimeRange.yields_decode.bind fun times upright => .pure upright

end Area

/-! ### Chains and capabilities -/

namespace Chain

variable {Grant : Type} {grant : Decoder Grant} {enc : Grant → Bytes} {fits : Grant → Prop}

theorem reads_decodeStep (reads : ∀ g, grant.Reads g (enc g) (fits g)) (d : Delegation Grant) :
    (decodeStep grant).Reads d (encodeStep enc d) (fits d.grant) := by
  have read : (decodeStep grant).Reads d
      (enc d.grant ++ (d.user.encode ++ (d.signature.bytes ++ [])))
      (fits d.grant ∧ True ∧ True ∧ True) := by
    unfold decodeStep
    refine (reads d.grant).bind ((Identifier.reads_decode d.user).bind ?_)
    exact (Reads.block d.signature).bind (.pure _)
  exact read.congr (by simp [encodeStep]) (by simp)

theorem reads_decode (reads : ∀ g, grant.Reads g (enc g) (fits g)) (c : Chain Grant)
    (room : c.length ≤ limit) :
    (decode grant).Reads ⟨c, room⟩ (c.encode enc) (∀ d ∈ c.steps, fits d.grant) := by
  have length : c.steps.length = c.length.toUInt8.toNat := by
    have : limit = 255 := rfl
    simp only [Chain.length, Nat.toUInt8, UInt8.toNat_ofNat'] at room ⊢
    omega
  have steps := Reads.replicate (fun d _ => reads_decodeStep reads d) length
  have read : (decode grant).Reads ⟨c, room⟩
      ([c.length.toUInt8] ++ (c.steps.flatMap (encodeStep enc) ++ []))
      (True ∧ (∀ d ∈ c.steps, fits d.grant) ∧ True) := by
    unfold decode
    exact (Reads.byte _).bind (steps.bind (.pure _))
  exact read.congr (by simp [encode]) (by simp)

theorem yields_decode {good : Grant → Prop} (yields : grant.Yields good) :
    (decode grant).Yields fun c => ∀ d ∈ c.1.steps, good d.grant := by
  have step : (decodeStep grant).Yields fun d => good d.grant := by
    refine yields.bind fun g here => (Yields.any _).bind fun _ _ => ?_
    exact (Yields.any _).bind fun _ _ => .pure here
  refine (Yields.any _).bind fun length _ => ?_
  exact (step.replicate length.toNat).bind fun steps upright => .pure upright

end Chain

theorem AccessMode.reads_decode (m : AccessMode) : decode.Reads m [m.byte] True := by
  have read : decode.Reads m ([m.byte] ++ []) (True ∧ True) := by
    unfold decode
    refine (Reads.byte _).bind ?_
    cases m <;> exact .pure _
  exact read.congr rfl (by simp)

namespace Capability

/-- No step grants a time range that ends before it starts. -/
def Upright (c : Capability) : Prop := ∀ d ∈ c.chain.steps, d.grant.times.Upright

theorem upright_of_isValid [Crypto] {c : Capability} (valid : c.isValid) {identity : Identity}
    {path : Path} {timestamp : UInt64} (inside : c.area.includes identity path timestamp) :
    c.Upright := by
  intro d member
  have everywhere := area_includes_areas valid inside d.grant
    (List.mem_cons_of_mem _ (List.mem_map_of_mem member))
  exact TimeRange.upright_of_includes (Area.includes_iff.mp everywhere).2.2

theorem reads_decodeRoot (root : Root) : (decodeRoot root.kind).Reads root root.encode True := by
  cases root with
  | communal => exact .pure _
  | owned signature =>
    have read : (decodeRoot 1).Reads (.owned signature) (signature.bytes ++ []) (True ∧ True) := by
      unfold decodeRoot
      exact (Reads.block signature).bind (.pure _)
    exact read.congr (by simp [Root.encode]) (by simp)

theorem reads_decode (c : Capability) : decode.Reads c c.encode c.Upright := by
  have chain := Chain.reads_decode Area.reads_decode c.chain c.length_chain
  have read : decode.Reads c
      ([c.root.kind] ++ ([c.mode.byte] ++ (c.share.encode ++ (c.user.encode ++
        (c.root.encode ++ (c.chain.encode Area.encode ++ []))))))
      (True ∧ True ∧ True ∧ True ∧ True ∧ c.Upright ∧ True) := by
    unfold decode
    refine (Reads.byte _).bind ((AccessMode.reads_decode c.mode).bind ?_)
    refine (Identifier.reads_decode c.share).bind ((Identifier.reads_decode c.user).bind ?_)
    exact (reads_decodeRoot c.root).bind (chain.bind (.pure _))
  exact read.congr (by simp [encode]) (by simp)

/-- Whatever bytes a capability is read from, no step of it grants an inverted range. -/
theorem yields_decode : decode.Yields Upright := by
  refine (Yields.any _).bind fun _ _ => (Yields.any _).bind fun _ _ => ?_
  refine (Yields.any _).bind fun _ _ => (Yields.any _).bind fun _ _ => ?_
  refine (Yields.any _).bind fun _ _ => ?_
  exact (Chain.yields_decode Area.yields_decode).bind fun chain upright => .pure upright

end Capability

theorem SubspaceCapability.reads_decode (c : SubspaceCapability) :
    decode.Reads c c.encode True := by
  have unit : ∀ u : Unit, (pure () : Decoder Unit).Reads u [] True := fun _ => .pure ()
  have chain := Chain.reads_decode unit c.chain c.length_chain
  have read : decode.Reads c
      (c.share.encode ++ (c.user.encode ++ (c.signature.bytes ++
        (c.chain.encode (fun _ => []) ++ []))))
      (True ∧ True ∧ True ∧ (∀ d ∈ c.chain.steps, True) ∧ True) := by
    unfold decode
    refine (Identifier.reads_decode c.share).bind ((Identifier.reads_decode c.user).bind ?_)
    exact (Reads.block c.signature).bind (chain.bind (.pure _))
  exact read.congr (by simp [encode]) (by simp)

/-! ### Packs, tokens, entries and documents -/

namespace Pack

theorem reads_decoder (p : Pack) : decoder.Reads p p.encode p.capability.Upright := by
  cases p with
  | read c subspace =>
    cases subspace with
    | none =>
      have read : decoder.Reads (.read c none) ([0] ++ (c.encode ++ []))
          (True ∧ c.Upright ∧ True) := by
        unfold decoder
        refine (Reads.byte 0).bind ?_
        exact (Capability.reads_decode c).bind (.pure _)
      exact read.congr (by simp [encode]) (by simp [capability])
    | some s =>
      have read : decoder.Reads (.read c (some s)) ([1] ++ (c.encode ++ (s.encode ++ [])))
          (True ∧ c.Upright ∧ True ∧ True) := by
        unfold decoder
        refine (Reads.byte 1).bind ?_
        rw [if_neg (by decide), if_pos rfl]
        refine (Capability.reads_decode c).bind ?_
        exact (SubspaceCapability.reads_decode s).bind (.pure _)
      exact read.congr (by simp [encode]) (by simp [capability])
  | write c =>
    have read : decoder.Reads (.write c) ([2] ++ (c.encode ++ [])) (True ∧ c.Upright ∧ True) := by
      unfold decoder
      refine (Reads.byte 2).bind ?_
      rw [if_neg (by decide), if_neg (by decide), if_pos rfl]
      exact (Capability.reads_decode c).bind (.pure _)
    exact read.congr (by simp [encode]) (by simp [capability])

theorem yields_decoder : decoder.Yields fun p => p.capability.Upright := by
  refine (Yields.any _).bind fun tag _ => ?_
  split
  · exact Capability.yields_decode.bind fun c upright => .pure upright
  · split
    · refine Capability.yields_decode.bind fun c upright => ?_
      exact (Yields.any _).bind fun _ _ => .pure upright
    · split
      · exact Capability.yields_decode.bind fun c upright => .pure upright
      · exact .reject _

theorem decode_of_toOption {b : Bytes} {p : Pack} (read : (decode b).toOption = some p) :
    decode b = .ok p := by
  cases decoded : decode b with
  | error e =>
    rw [decoded] at read
    cases read
  | ok q =>
    rw [decoded] at read
    cases read
    rfl

theorem upright_of_decode {b : Bytes} {p : Pack} (read : decode b = .ok p) : p.capability.Upright :=
  yields_decoder.runAll read

theorem eq_of_decode_encode {p q : Pack} (read : decode p.encode = .ok q) : q = p := by
  obtain ⟨reads, refuses⟩ := (reads_decoder p).runAll
  by_cases upright : p.capability.Upright
  · rw [decode, reads upright] at read
    cases read
    rfl
  · obtain ⟨e, refused⟩ := refuses upright
    rw [decode, refused] at read
    cases read

end Pack

theorem Token.reads_decode (t : Token) : decode.Reads t t.encode t.capability.Upright := by
  have read : decode.Reads t (t.capability.encode ++ (t.signature.bytes ++ []))
      (t.capability.Upright ∧ True ∧ True) := by
    unfold decode
    exact (Capability.reads_decode t.capability).bind ((Reads.block t.signature).bind (.pure _))
  exact read.congr (by simp [encode]) (by simp)

theorem Token.upright_of_authorises [Crypto] {t : Token} {e : Entry} (proof : t.authorises e) :
    t.capability.Upright := by
  obtain ⟨_, _, inside, valid, _⟩ := Token.authorises_iff.mp proof
  exact Capability.upright_of_isValid valid inside

theorem Entry.reads_decode (e : Entry) : decode.Reads e e.encode True := by
  have read : decode.Reads e
      (e.share.encode ++ (e.identity.encode ++ (e.path.ordered ++ (Bytes.ofWord e.timestamp ++
        (Bytes.ofWord e.payloadLength ++ (e.payloadDigest.bytes ++ []))))))
      (True ∧ True ∧ True ∧ True ∧ True ∧ True ∧ True) := by
    unfold decode
    refine (Identifier.reads_decode e.share).bind ((Identifier.reads_decode e.identity).bind ?_)
    refine (Path.reads_decodeOrdered e.path).bind ((Reads.word64 e.timestamp).bind ?_)
    exact (Reads.word64 e.payloadLength).bind ((Reads.block e.payloadDigest).bind (.pure _))
  exact read.congr (by simp [encode]) (by simp)

theorem Document.decode_encode {d : Document} (upright : d.token.capability.Upright) :
    decode d.encode = .ok d := by
  have read : (do return ⟨← Entry.decode, ← Token.decode⟩ : Decoder Document).Reads d
      (d.entry.encode ++ (d.token.encode ++ [])) (True ∧ d.token.capability.Upright ∧ True) :=
    (Entry.reads_decode d.entry).bind ((Token.reads_decode d.token).bind (.pure _))
  have bytes : d.entry.encode ++ (d.token.encode ++ []) = d.encode := by simp [encode]
  have whole := (read.congr bytes Iff.rfl).runAll
  exact whole.1 ⟨trivial, upright, trivial⟩

end DocumentShare
