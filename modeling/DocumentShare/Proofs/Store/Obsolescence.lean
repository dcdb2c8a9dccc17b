import DocumentShare.Proofs.Store.Beating

/-!
# Obsolete writes have nothing to prune

Where no document is beaten by another, it makes no difference whether a write is first asked to be newer
and then what it prunes, or the other way round (`Ledger.Decides.unique`). So the two orders of these
checks have the same effect (`Store.SameEffect`).
-/

namespace DocumentShare

open Work

namespace Ledger

variable {l l' l'' : Ledger} {e : Entry}

/-! ### The order of the checks -/

/-- What an authorised write comes to, and the ledger afterwards. A write that is both obsolete and
prevented may come to either. -/
inductive Decides (l : Ledger) (e : Entry) (t : Token) (prune : Bool) : Outcome → Ledger → Prop
  | prevented {stale : List Document} (pruned : l.Stale e stale) (some : stale ≠ [])
      (forbidden : prune = false) : Decides l e t prune (.pruningPrevented stale) l
  | obsolete (h : l.Obsoletes e) : Decides l e t prune .obsolete l
  | written {previous : Option Document} {stale : List Document} (newest : ¬l.Obsoletes e)
      (here : l.At e.identity e.path previous) (pruned : l.Stale e stale)
      (permitted : stale ≠ [] → prune = true) :
      Decides l e t prune (.success ⟨e, t⟩ (stale.map Document.path))
        (((l.bring ⟨e, t⟩ true).insertion ⟨e, t⟩ previous stale).tell (.documentSet ⟨e, t⟩))

/-- Where nothing is beaten no write is both. -/
theorem Decides.unique {t : Token} {prune : Bool} {o o' : Outcome} (decides : l.Decides e t prune o l')
    (decides' : l.Decides e t prune o' l'') (held : NoneBeats (fun _ => True) l.documents) :
    o = o' ∧ l' = l'' := by
  cases decides with
  | prevented pruned some forbidden =>
    cases decides' with
    | prevented pruned' => exact ⟨by rw [pruned.unique pruned'], rfl⟩
    | obsolete obsolete => exact absurd (obsolete.stale_eq_nil pruned held) some
    | written _ _ pruned' permitted =>
      rw [pruned.unique pruned'] at some
      rw [permitted some] at forbidden
      cases forbidden
  | obsolete obsolete =>
    cases decides' with
    | prevented pruned some => exact absurd (obsolete.stale_eq_nil pruned held) some
    | obsolete _ => exact ⟨rfl, rfl⟩
    | written newest => exact absurd obsolete newest
  | written newest here pruned permitted =>
    cases decides' with
    | prevented pruned' some forbidden =>
      rw [← pruned.unique pruned'] at some
      rw [permitted some] at forbidden
      cases forbidden
    | obsolete obsolete => exact absurd obsolete newest
    | written _ here' pruned' =>
      rw [here.unique here', pruned.unique pruned']
      exact ⟨rfl, rfl⟩

end Ledger

namespace Store

variable [Crypto] {s : Store} {t u : Site} {l : Ledger}

/-- A write that is asked to be newer first and not to prune then, as an entry from elsewhere is. -/
def setPruningLast (s : Store) (identity : Identity) (path : Path) (payload : Bytes)
    (timestamp : UInt64) (prune : Bool) : SiteWork StoreError Outcome := do
  let e := entryOf s.share identity path timestamp payload
  match ← s.authorise e with
  | none => return .refused (.authorisation (noCapability e))
  | some token =>
    if ← s.onArchive (Archive.isObsolete e) then return .obsolete
    let stale ← s.onArchive (Archive.prunable e)
    if !stale.isEmpty && !prune then return .pruningPrevented stale
    let d : Document := ⟨e, token⟩
    return .success d (← s.onArchive (Archive.write d payload stale))

section Deciding

variable {e : Entry} {token : Token}

/-- What authorises an entry depends on the credentials alone. -/
theorem authorise_answers (apart : s.Apart)
    (authorised : ((s.authorise e).runOn t).1 = .ok (some token))
    (same : s.credentials u = s.credentials t) :
    (s.authorise e).Answers u fun o v => o = some token ∧ token.capability.Upright ∧
      s.archive v = s.archive u := by
  have here : ((s.authorise e).runOn u).1 = .ok (some token) := by
    rw [← authorised]
    change (((Credentials.authorise s.vault.config e).reporting StoreError.auth).runOn
      (s.credentials u)).1 = _
    rw [same]
    rfl
  have ends := authorise_ends apart e (t := u)
  unfold Ends at ends
  unfold Answers Ends
  rcases ran : (s.authorise e).runOn u with ⟨error | o, v⟩
  · rw [ran] at here
    cases here
  · rw [ran] at here ends
    cases here
    exact ⟨rfl, ends.1 token rfl, ends.2⟩

theorem Tracks.prunable (apart : s.Apart) (tracks : s.Tracks t l) (e : Entry) :
    (s.onArchive (Archive.prunable e)).Answers t fun stale u =>
      l.Stale e stale ∧ s.Tracks u l ∧ s.credentials u = s.credentials t :=
  (onArchive_ends apart (Archive.Tracks.prunable tracks e)).mono
    (fun _ _ h => ⟨h.1.1, h.1.2, h.2⟩) fun _ _ h => h.1.elim

omit [Crypto] in
theorem prevents_iff {stale : List Document} {prune : Bool} :
    (!stale.isEmpty && !prune) = true ↔ stale ≠ [] ∧ prune = false := by
  simp

theorem Tracks.isObsolete (apart : s.Apart) (tracks : s.Tracks t l) (e : Entry) :
    (s.onArchive (Archive.isObsolete e)).Answers t fun obsolete u =>
      (obsolete = true ↔ l.Obsoletes e) ∧ s.Tracks u l :=
  Tracks.reading apart (Archive.Tracks.isObsolete tracks e)

variable (apart : s.Apart) (tracks : s.Tracks t l) (balanced : l.Balanced 0)
  (room : l.documents.card + 1 < 256 ^ 8)

include apart tracks balanced room

theorem Tracks.write_decides (upright : token.capability.Upright) (newest : ¬l.Obsoletes e)
    {stale : List Document} (pruned : l.Stale e stale) {prune : Bool}
    (permitted : ¬(!stale.isEmpty && !prune) = true) {payload : Bytes}
    (named : Crypto.digest payload = e.payloadDigest) :
    (do return .success ⟨e, token⟩ (← s.onArchive (Archive.write ⟨e, token⟩ payload stale)) :
      SiteWork StoreError Outcome).Answers t fun o u =>
        ∃ l', l.Decides e token prune o l' ∧ s.Tracks u l' := by
  have permitted : stale ≠ [] → prune = true := by
    intro some
    simpa [some] using permitted
  have written := tracks.write apart balanced room (d := ⟨e, token⟩) upright named pruned
  refine written.bind ?_
  rintro paths v ⟨rfl, previous, here, tracks⟩
  exact Ends.pure ⟨_, .written newest here pruned permitted, tracks⟩

variable (identity : Identity) (path : Path) (payload : Bytes) (timestamp : UInt64) (prune : Bool)
  (authorised : ((s.authorise (entryOf s.share identity path timestamp payload)).runOn t).1
    = .ok (some token))

include authorised

theorem Tracks.set_decides : (s.set identity path payload timestamp prune).Answers t fun o u =>
    ∃ l', l.Decides (entryOf s.share identity path timestamp payload) token prune o l' ∧
      s.Tracks u l' := by
  refine (tracks.prunable apart _).bind fun stale u ⟨pruned, tracks, same⟩ => ?_
  split
  · next h =>
    obtain ⟨some, forbidden⟩ := prevents_iff.mp h
    exact Ends.pure ⟨l, .prevented pruned some forbidden, tracks⟩
  · next permitted =>
    refine (authorise_answers apart authorised same).bind ?_
    rintro _ v ⟨rfl, upright, unmoved⟩
    have tracks : s.Tracks v l := show (s.archive v).Tracks l from unmoved ▸ tracks
    refine (tracks.isObsolete apart _).bind fun obsolete w ⟨answer, tracks⟩ => ?_
    cases obsolete with
    | true => exact Ends.pure ⟨l, .obsolete (answer.mp rfl), tracks⟩
    | false =>
      have newest : ¬l.Obsoletes (entryOf s.share identity path timestamp payload) :=
        fun h => by cases answer.mpr h
      exact tracks.write_decides apart balanced room upright newest pruned permitted rfl

theorem Tracks.setPruningLast_decides :
    (s.setPruningLast identity path payload timestamp prune).Answers t fun o u =>
      ∃ l', l.Decides (entryOf s.share identity path timestamp payload) token prune o l' ∧
        s.Tracks u l' := by
  refine (authorise_answers apart authorised rfl).bind ?_
  rintro _ u ⟨rfl, upright, unmoved⟩
  have tracks : s.Tracks u l := show (s.archive u).Tracks l from unmoved ▸ tracks
  refine (tracks.isObsolete apart _).bind fun obsolete v ⟨answer, tracks⟩ => ?_
  cases obsolete with
  | true => exact Ends.pure ⟨l, .obsolete (answer.mp rfl), tracks⟩
  | false =>
    have newest : ¬l.Obsoletes (entryOf s.share identity path timestamp payload) :=
      fun h => by cases answer.mpr h
    refine (tracks.prunable apart _).bind fun stale w ⟨pruned, tracks, _⟩ => ?_
    split
    · next h =>
      obtain ⟨some, forbidden⟩ := prevents_iff.mp h
      exact Ends.pure ⟨l, .prevented pruned some forbidden, tracks⟩
    · next permitted =>
      exact tracks.write_decides apart balanced room upright newest pruned permitted rfl

end Deciding

end Store

/-! ### Entries from elsewhere -/

namespace Archive

variable [Crypto]

/-- An entry from elsewhere that is asked what it prunes before it is asked to be newer, as a write made
here is. -/
def ingestPruningFirst (share : Share) (e : Entry) (t : Token) (payload : Option Bytes) :
    ArchiveWork Outcome := do
  match refusal? share e t payload with
  | some error => return .refused error
  | none =>
    let stale ← prunable e
    if ← isObsolete e then return .obsolete
    let d : Document := ⟨e, t⟩
    let pruned ← place d payload stale
    emit (.entryIngest d)
    payload.forM fun _ => emit (.payloadIngest d)
    return .success d pruned

theorem Tracks.ingestPruningFirst {a : Archive} {l : Ledger} {e : Entry} (tracks : a.Tracks l)
    (balanced : l.Balanced 0) (room : l.documents.card + 1 < 256 ^ 8) (share : Share) (t : Token)
    (payload : Option Bytes) :
    (Archive.ingestPruningFirst share e t payload).Answers a fun outcome a' => ∃ l',
      l.Ingests share e t payload outcome l' ∧ a'.Tracks l' := by
  unfold Archive.ingestPruningFirst
  cases refusal : Archive.refusal? share e t payload with
  | some error => exact Ends.pure ⟨l, .refused refusal, tracks⟩
  | none =>
    refine (tracks.prunable e).bind fun stale b ⟨pruned, tracks⟩ => ?_
    refine (tracks.isObsolete e).bind fun obsolete b ⟨answer, tracks⟩ => ?_
    cases obsolete with
    | true => exact Ends.pure ⟨l, .obsolete refusal (answer.mp rfl), tracks⟩
    | false =>
      have newest : ¬b.Obsoletes e := fun h => by cases answer.mpr ((tracks.obsoletes_iff e).mp h)
      have ingests := Archive.Ingests.written refusal newest
      obtain ⟨l', ⟨o, success, done⟩, leads⟩ := ingests.leads tracks balanced fun _ => room
      obtain rfl := pruned.unique (tracks.stale e)
      apply (tracks.makes (.placeTelling tracks.lists ⟨e, t⟩ payload) leads).mono
      · rintro _ c ⟨rfl, tracks'⟩
        cases success
        exact ⟨l', done, tracks'⟩
      · intro _ _
        exact id

end Archive

theorem Ledger.Ingests.unique [Crypto] {l l' l'' : Ledger} {share : Share} {e : Entry} {t : Token}
    {payload : Option Bytes} {o o' : Outcome} (ingests : l.Ingests share e t payload o l')
    (ingests' : l.Ingests share e t payload o' l'') : o = o' ∧ l' = l'' := by
  cases ingests with
  | refused refusal =>
    cases ingests' with
    | refused refusal' =>
      rw [refusal] at refusal'
      cases refusal'
      exact ⟨rfl, rfl⟩
    | obsolete accepted => rw [refusal] at accepted; cases accepted
    | written accepted => rw [refusal] at accepted; cases accepted
  | obsolete accepted obsolete =>
    cases ingests' with
    | refused refusal => rw [accepted] at refusal; cases refusal
    | obsolete => exact ⟨rfl, rfl⟩
    | written _ newest => exact absurd obsolete newest
  | written accepted newest here pruned =>
    cases ingests' with
    | refused refusal => rw [accepted] at refusal; cases refusal
    | obsolete _ obsolete => exact absurd obsolete newest
    | written _ _ here' pruned' =>
      rw [here.unique here', pruned.unique pruned']
      exact ⟨rfl, rfl⟩

namespace Store

variable [Crypto] {s : Store} {t u : Site} {log : List Exchange}

/-- Two ways of doing something come to the same: the answer, the records that are kept, the payloads
that are there, and the events. -/
structure SameEffect (s : Store) {α : Type} (w w' : SiteWork StoreError α) (t : Site) : Prop where
  answer : (w.runOn t).1 = (w'.runOn t).1
  records : ∀ key, (s.archive (w.runOn t).2).entries.contents.get? key =
    (s.archive (w'.runOn t).2).entries.contents.get? key
  payloads : ∀ g : Digest, ((s.archive (w.runOn t).2).payloads.contents.get? g.bytes).isSome =
    ((s.archive (w'.runOn t).2).payloads.contents.get? g.bytes).isSome
  events : (s.archive (w.runOn t).2).events = (s.archive (w'.runOn t).2).events

theorem SameEffect.of_unique {α : Type} {w w' : SiteWork StoreError α} {does : α → Ledger → Prop}
    (first : w.Answers t fun o u => ∃ l, does o l ∧ s.Tracks u l)
    (second : w'.Answers t fun o u => ∃ l, does o l ∧ s.Tracks u l)
    (unique : ∀ o o' l l', does o l → does o' l' → o = o' ∧ l = l') : s.SameEffect w w' t := by
  obtain ⟨o, answer, l, done, tracks⟩ := first.ran
  obtain ⟨o', answer', l', done', tracks'⟩ := second.ran
  obtain ⟨rfl, rfl⟩ := unique o o' l l' done done'
  refine ⟨answer.trans answer'.symm, fun key => ?_, fun g => ?_, ?_⟩
  · ext value
    rw [tracks.describes.records, tracks'.describes.records]
  · rw [Bool.eq_iff_iff, ← tracks.describes.stored, ← tracks'.describes.stored]
  · exact tracks.shows.eventsAre.trans tracks'.shows.eventsAre.symm

/-- A write that is obsolete finds nothing to prune, so it does not matter whether it may. -/
theorem Tracks.set_of_obsolete {l : Ledger} (apart : s.Apart) (tracks : s.Tracks t l)
    (held : Ledger.NoneBeats (fun _ => True) l.documents) {identity : Identity} {path : Path}
    {payload : Bytes} {timestamp : UInt64}
    (obsolete : l.Obsoletes (entryOf s.share identity path timestamp payload)) (prune prune' : Bool) :
    (s.set identity path payload timestamp prune).runOn t
      = (s.set identity path payload timestamp prune').runOn t := by
  obtain ⟨stale, answer, pruned, _⟩ :=
    (tracks.prunable apart (entryOf s.share identity path timestamp payload)).ran
  rw [obsolete.stale_eq_nil pruned held] at answer
  have ran := Prod.ext (x := (s.onArchive (Archive.prunable _)).runOn t) (y := (_, _)) answer rfl
  rw [Store.set, Store.set, runOn_bind_ok ran, runOn_bind_ok ran]
  rfl

theorem Tracks.set_ne_prevented {l : Ledger} (apart : s.Apart) (tracks : s.Tracks t l)
    (balanced : l.Balanced 0) (room : l.documents.card + 1 < 256 ^ 8) {identity : Identity}
    {path : Path} {payload : Bytes} {timestamp : UInt64} (stale : List Document) :
    ((s.set identity path payload timestamp true).runOn t).1 ≠ .ok (.pruningPrevented stale) := by
  intro prevented
  obtain ⟨o, answer, l', sets, _⟩ | ⟨_, failure, _⟩ :=
    (tracks.set apart balanced room identity path payload timestamp true).cases
  · rw [prevented] at answer
    cases answer
    cases sets with
    | prevented _ _ forbidden => cases forbidden
  · rw [prevented] at failure
    cases failure

end Store

/-- On a store that was never cleared an obsolete write has nothing to prune, so it does not matter
which of the two is asked first. -/
theorem obsolete_prunes_nothing_of_run [Crypto] {s : Store} {t u : Site} {log : List Exchange}
    (apart : s.Apart) (fresh : s.Fresh t) (run : s.Run s.Spares t log u)
    (few : log.length + 1 < 2 ^ 64)
    (uncleared : ∀ x ∈ log, ∀ identity path, x.call ≠ .clear identity path) :
    (∀ e, ∃ obsolete stale, ((s.onArchive (Archive.isObsolete e)).runOn u).1 = .ok obsolete ∧
      ((s.onArchive (Archive.prunable e)).runOn u).1 = .ok stale ∧ (obsolete = true → stale = [])) ∧
    (∀ identity path payload timestamp,
      let e := Store.entryOf s.share identity path timestamp payload
      let set := s.set identity path payload timestamp
      (((s.onArchive (Archive.isObsolete e)).runOn u).1 = .ok true →
        (set false).runOn u = (set true).runOn u ∧
          ∀ prune stale, ((set prune).runOn u).1 ≠ .ok (.pruningPrevented stale)) ∧
      ∀ prune token, ((s.authorise e).runOn u).1 = .ok (some token) →
        s.SameEffect (set prune) (s.setPruningLast identity path payload timestamp prune) u) ∧
    ∀ e token payload, s.SameEffect (s.ingest e token payload)
      (s.onArchive (Archive.ingestPruningFirst s.share e token payload)) u := by
  have short : log.length < 256 ^ 8 := by omega
  obtain ⟨⟨l, tracks, upkeep⟩, _⟩ := Store.upkeep_of_run apart fresh run short
  have room : l.documents.card + 1 < 256 ^ 8 := Nat.lt_of_le_of_lt (Nat.succ_le_succ upkeep.few) few
  have held : Ledger.NoneBeats (fun _ => True) (s.documents u) :=
    Store.noneBeats_of_run apart fresh run short fun x member identity path same =>
      absurd same (uncleared x member identity path)
  rw [tracks.documents] at held
  refine ⟨fun e => ?_, fun identity path payload timestamp => ⟨fun obsolete => ?_, ?_⟩,
    fun e token payload => ?_⟩
  · obtain ⟨obsolete, answer, told, _⟩ := (tracks.isObsolete apart e).ran
    obtain ⟨stale, answer', pruned, _⟩ := (tracks.prunable apart e).ran
    exact ⟨obsolete, stale, answer, answer', fun yes => (told.mp yes).stale_eq_nil pruned held⟩
  · obtain ⟨_, answer, told, _⟩ :=
      (tracks.isObsolete apart (Store.entryOf s.share identity path timestamp payload)).ran
    rw [obsolete] at answer
    cases answer
    have same := tracks.set_of_obsolete apart held (told.mp rfl)
    refine ⟨same false true, fun prune stale => ?_⟩
    rw [same prune true]
    exact tracks.set_ne_prevented apart upkeep.balanced room stale
  · intro prune token authorised
    exact .of_unique (tracks.set_decides apart upkeep.balanced room _ _ _ _ _ authorised)
      (tracks.setPruningLast_decides apart upkeep.balanced room _ _ _ _ _ authorised)
      fun _ _ _ _ decides decides' => decides.unique decides' held
  · have first := tracks.ingest apart upkeep.balanced (fun _ => room) token payload (e := e)
    have last := Store.ends_onArchive apart (Archive.Tracks.ingestPruningFirst tracks upkeep.balanced
      room s.share token payload (e := e))
    exact .of_unique first last fun _ _ _ _ ingests ingests' => ingests.unique ingests'

section Sample

open Crypto.Transparent

attribute [local instance] Crypto.transparent

/-- After the three writes an older one at one of its places is obsolete, and one above it that may not
prune is prevented in either order. -/
theorem obsolete_prunes_nothing_of_run_older_write :
    let after := sample.performAll threeWrites [] blank
    let older := sample.set (identity 1) (path 7) [1] 8
    (sample.Apart ∧ sample.Fresh blank ∧ sample.Run sample.Spares blank after.1 after.2 ∧
      after.1.length + 1 < 2 ^ 64 ∧ (∀ x ∈ after.1, ∀ i p, x.call ≠ .clear i p) ∧
      ((sample.onArchive (Archive.isObsolete
        (Store.entryOf (share 1) (identity 1) (path 7) 8 [1]))).runOn after.2).1 = .ok true) ∧
    (older false).runOn after.2 = (older true).runOn after.2 ∧
    ∃ token, ((sample.authorise
        (Store.entryOf (share 1) (identity 1) .empty 10 [3])).runOn after.2).1 = .ok (some token) ∧
      sample.SameEffect (sample.set (identity 1) .empty [3] 10 false)
        (sample.setPruningLast (identity 1) .empty [3] 10 false) after.2 := by
  intro after older
  have fresh : sample.Fresh blank := ⟨Backend.works_empty, Backend.works_empty, rfl, rfl, rfl⟩
  have run : sample.Run sample.Spares blank after.1 after.2 := Store.Run.start.performAll threeWrites
  have few : after.1.length + 1 < 2 ^ 64 := by decide +kernel
  have uncleared : ∀ x ∈ after.1, ∀ i p, x.call ≠ .clear i p := by
    intro x member i p same
    have called : x.call ∈ threeWrites.reverse ++ [] :=
      sample.calls_performAll threeWrites [] blank ▸ List.mem_map_of_mem member
    rw [same] at called
    simp [threeWrites] at called
  have obsolete : ((sample.onArchive (Archive.isObsolete
      (Store.entryOf (share 1) (identity 1) (path 7) 8 [1]))).runOn after.2).1 = .ok true := by
    decide +kernel
  obtain ⟨_, sets, _⟩ := obsolete_prunes_nothing_of_run sample_apart fresh run few uncleared
  have granted : (((sample.authorise
      (Store.entryOf (share 1) (identity 1) .empty 10 [3])).runOn after.2).1.toOption.join).isSome := by
    decide +kernel
  refine ⟨⟨sample_apart, fresh, run, few, uncleared, obsolete⟩, ((sets _ _ _ _).1 obsolete).1, ?_⟩
  rcases authorised : ((sample.authorise
      (Store.entryOf (share 1) (identity 1) .empty 10 [3])).runOn after.2).1 with e | _ | token
  · rw [authorised] at granted
    cases granted
  · rw [authorised] at granted
    cases granted
  · exact ⟨token, rfl, (sets _ _ _ _).2 false token authorised⟩

end Sample

end DocumentShare
