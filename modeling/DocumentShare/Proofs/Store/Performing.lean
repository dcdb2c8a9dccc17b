import DocumentShare.Proofs.Authority.Encoding
import DocumentShare.Proofs.Store.Making
import DocumentShare.Proofs.Store.Outcomes
import DocumentShare.Proofs.Vault.Keeping

/-!
# Calls make their plans

A call reads the archive and has its entry authorised before its first step, so it makes the steps of one
of its replies, or a front of them where something stops it (`Store.came_of_call`). The credentials may
fail in any way; calls on them leave the archive alone.
-/

namespace DocumentShare

open Work

/-! ### Entries from elsewhere -/

namespace Archive

variable [Crypto] {α : Type} {a : Archive} {documents : Finset Document}

theorem reading_broke {w : ArchiveWork α} {good : α → Prop} (reads : w.Reads a.entries.contents good) :
    w.Ends a (fun x b => good x ∧ a.Same b) fun e b => a.Broke [] e b := by
  apply (reads a rfl).mono
  · intro _ _
    exact id
  · intro e b ⟨⟨error, failure⟩, broken, same⟩
    rw [failure]
    exact .of_same same (.storage error fun works => broken works.entries)

theorem came_ingest (lists : a.entries.contents.Lists documents) (share : Share) (e : Entry)
    (t : Token) (payload : Option Bytes) :
    (ingest share e t payload).Ends a
      (fun o b => a.Came (a.Ingests share e t payload) (.ok o) b)
      fun error b => a.Came (a.Ingests share e t payload) (.error error) b := by
  have live (d : Document) := (documents_of_lists lists).2 d
  unfold ingest
  split
  · next refused => exact Ends.pure (.made (.refused refused) (.of_same (.refl a)))
  · next accepted =>
    apply ((reading_broke (lists.isObsolete e)).mono (fun _ _ => id) fun _ _ => .broke (.inl rfl)).bind
    intro obsolete b ⟨answer, same⟩
    simp only [← live] at answer
    split
    · next older => exact Ends.pure (.made (.obsolete accepted (answer.mp older)) (.of_same same))
    · next newest =>
      apply (ArchiveWork.Makes.accept lists ⟨e, t⟩ payload b same.holdings).mono
      · rintro _ c ⟨rfl, made⟩
        exact .made (.written accepted (mt answer.mpr newest)) (made.before same)
      · intro error c broke
        exact .broke (.inr ⟨_, .written accepted (mt answer.mpr newest)⟩) (broke.before same)

theorem came_ingestPayload (lists : a.entries.contents.Lists documents) (identity : Identity)
    (path : Path) (payload : Bytes) :
    (ingestPayload identity path payload).Ends a
      (fun arrived b => a.Came (a.Receives identity path payload) (.ok arrived) b)
      fun error b => a.Came (a.Receives identity path payload) (.error error) b := by
  apply ((reading_broke (lists.get identity path)).mono (fun _ _ => id) fun _ _ => .broke (.inl rfl)).bind
  intro found b ⟨here, same⟩
  cases found with
  | none => exact Ends.pure (.made .unclaimed (.of_same same))
  | some d =>
    obtain ⟨live, place⟩ := (here d).mp rfl
    rw [← (documents_of_lists lists).2 d] at live
    dsimp only
    split
    · next matching =>
      have stores : (storePayload payload >>= fun _ => emit (.payloadIngest d) >>= fun _ =>
          return true).Makes a.holdings [.store payload, .tell (.payloadIngest d)] (· = true) :=
        (ArchiveWork.Makes.storePayload payload).bind fun _ _ =>
          (ArchiveWork.Makes.emit _).last fun _ _ => .pure rfl
      apply (stores b same.holdings).mono
      · rintro _ c ⟨rfl, made⟩
        exact .made (.arrived live place matching) (made.before same)
      · intro error c broke
        exact .broke (.inr ⟨_, .arrived live place matching⟩) (broke.before same)
    · exact Ends.pure (.made .unclaimed (.of_same same))

end Archive

/-! ### Credentials -/

theorem Credentials.authorise_ends [Crypto] (c : Vault.Config) (e : Entry) (st : Vault.State) :
    (Credentials.authorise c e).Ends st (fun o _ => ∀ t ∈ o, t.capability.Upright)
      fun _ _ => True := by
  refine Ends.reporting (Vault.find_visited _ fun plaintext u => ?_)
  split
  · exact Ends.pure (by rintro t ⟨⟩)
  · next pack selected =>
    obtain ⟨read, _⟩ := Option.filter_eq_some_iff.mp selected
    refine (Ends.any _ _).bind fun found u _ => Ends.pure fun t made => ?_
    obtain ⟨k, _, rfl⟩ := Option.map_eq_some_iff.mp made
    exact Pack.upright_of_decode (Pack.decode_of_toOption read)

namespace Store

variable {α β : Type} {s : Store} {t u : Site} {documents : Finset Document} {d : Document}

theorem onCredentials_ends (apart : s.Apart) (w : Vault.Config → CredentialWork α)
    (good : α → Prop) (h : ∀ c st, (w c).Ends st (fun x _ => good x) fun _ _ => True) :
    (s.onCredentials w).Ends t (fun x u => good x ∧ s.archive u = s.archive t)
      (fun e u => (∃ error, e = .auth error) ∧ s.archive u = s.archive t) := by
  have told : ((w s.vault.config).reporting StoreError.auth).Ends (s.credentials t)
      (fun x _ => good x) fun e _ => ∃ error, e = .auth error :=
    Ends.reporting ((h _ _).mono (fun _ _ => id) fun e _ _ => ⟨e, rfl⟩)
  exact (onVault_ends apart told).mono (fun _ _ => id) fun _ _ => id

variable [Crypto] {good : Document → Prop}

theorem authorise_ends (apart : s.Apart) (e : Entry) :
    (s.authorise e).Ends t
      (fun o u => (∀ t ∈ o, t.capability.Upright) ∧ s.archive u = s.archive t)
      (fun e u => (∃ error, e = .auth error) ∧ s.archive u = s.archive t) :=
  onCredentials_ends apart (Credentials.authorise · e) _ fun c => Credentials.authorise_ends c e

/-- With the credentials of the site, what is authorised is `good`. -/
def Authorises (s : Store) (t : Site) (good : Document → Prop) : Prop :=
  ∀ (e : Entry) (u : Site), e.share = s.share → s.credentials u = s.credentials t →
    (s.authorise e).Ends u (fun o v => (∀ token ∈ o, good ⟨e, token⟩) ∧ s.archive v = s.archive u)
      fun error v => (∃ reason, error = .auth reason) ∧ s.archive v = s.archive u

theorem authorises_upright (apart : s.Apart) :
    s.Authorises t (·.token.capability.Upright) :=
  fun e _ _ _ => authorise_ends apart e

/-! ### Calls -/

/-- The work comes to an answer or an error of the plans. -/
def Comes (s : Store) (t : Site) (plans : Except StoreError α → List Step → Prop)
    (w : SiteWork StoreError α) : Prop :=
  w.Ends t (fun x u => (s.archive t).Came plans (.ok x) (s.archive u))
    fun e u => (s.archive t).Came plans (.error e) (s.archive u)

theorem Comes.map {w : SiteWork StoreError α} {g : α → β}
    {plans : Except StoreError α → List Step → Prop} {plans' : Except StoreError β → List Step → Prop}
    (comes : s.Comes t plans w) (becomes : ∀ {r steps}, plans r steps → plans' (r.map g) steps) :
    s.Comes t plans' (g <$> w) := by
  refine (comes.mono (fun _ _ came => came.map becomes) fun _ _ came => came.map becomes).map ?_
  intro _ _
  exact id

section Courses

variable {plans : Except StoreError α → List Step → Prop}

theorem reading_ends {w : ArchiveWork β} {found : β → Prop} (apart : s.Apart)
    (same : (s.archive t).Same (s.archive u)) (reads : w.Reads (s.archive t).entries.contents found) :
    (s.onArchive w).Ends u
      (fun x v => (found x ∧ (s.archive t).Same (s.archive v)) ∧ s.credentials v = s.credentials u)
      fun e v => (s.archive t).Came plans (.error e) (s.archive v) := by
  apply (onArchive_ends apart (reads (s.archive u) same.entries)).mono
  · intro x v ⟨⟨found, same'⟩, credentials⟩
    exact ⟨⟨found, same.trans same'⟩, credentials⟩
  · intro e v ⟨⟨⟨error, failure⟩, broken, same'⟩, _⟩
    rw [failure]
    apply Archive.Came.broke (.inl rfl) (.of_same (same.trans same') (.storage error ?_))
    exact fun works => broken (same.works works.entries)

theorem authorising_ends (authorises : s.Authorises t good)
    (same : (s.archive t).Same (s.archive u)) (credentials : s.credentials u = s.credentials t)
    {e : Entry} (ofShare : e.share = s.share) (failed : ∀ error, plans (.error (.auth error)) []) :
    (s.authorise e).Ends u
      (fun o v => (∀ token ∈ o, good ⟨e, token⟩) ∧ (s.archive t).Same (s.archive v))
      fun error v => (s.archive t).Came plans (.error error) (s.archive v) := by
  apply (authorises e u ofShare credentials).mono
  · intro o v ⟨proof, unchanged⟩
    rw [unchanged]
    exact ⟨proof, same⟩
  · rintro _ v ⟨⟨error, rfl⟩, unchanged⟩
    rw [unchanged]
    exact .made (failed error) (.of_same same)

theorem writing_ends (apart : s.Apart) (lists : (s.archive t).entries.contents.Lists documents)
    (same : (s.archive t).Same (s.archive u)) {payload : Bytes} {x : α}
    (plan : plans (.ok x) ((s.archive t).plan d (some payload) [.documentSet d])) :
    (s.onArchive (Archive.write d payload ((s.archive t).documents.filter d.entry.prunes))).Ends u
      (fun paths v => paths = ((s.archive t).documents.filter d.entry.prunes).map Document.path ∧
        (s.archive t).Made ((s.archive t).plan d (some payload) [.documentSet d]) (s.archive v))
      fun e v => (s.archive t).Came plans (.error e) (s.archive v) := by
  have writes := ArchiveWork.Makes.write lists d payload (s.archive u) same.holdings
  apply (ends_onArchive apart writes).mono
  · intro paths v ⟨answer, made⟩
    exact ⟨answer, made.before same⟩
  · intro e v broke
    exact .broke (.inr ⟨x, plan⟩) (broke.before same)

end Courses

theorem comes_set (apart : s.Apart) (lists : (s.archive t).entries.contents.Lists documents)
    (authorises : s.Authorises t good) (identity : Identity) (path : Path) (payload : Bytes)
    (timestamp : UInt64) (prune : Bool) :
    s.Comes t ((s.archive t).Sets good (entryOf s.share identity path timestamp payload) payload prune)
      (s.set identity path payload timestamp prune) := by
  let e := entryOf s.share identity path timestamp payload
  have live (d : Document) := (Archive.documents_of_lists lists).2 d
  apply (reading_ends apart (.refl _) (Archive.reads_prunable lists e)).bind
  rintro _ u ⟨⟨rfl, same⟩, credentials⟩
  split
  · next prevented =>
    simp only [Bool.and_eq_true, Bool.not_eq_true', List.isEmpty_eq_false_iff] at prevented
    exact Ends.pure (.made (.prevented prevented.1 prevented.2) (.of_same same))
  · next permitted =>
    have permitted : (s.archive t).documents.filter e.prunes ≠ [] → prune = true := by
      intro some
      simpa [some] using permitted
    apply (authorising_ends authorises same credentials rfl (.failed permitted)).bind
    intro o v ⟨proof, same⟩
    cases o with
    | none => exact Ends.pure (.made (.unauthorised permitted) (.of_same same))
    | some token =>
      -- Credentials are another part of the site, so what was read of the archive still holds.
      apply (reading_ends apart same (lists.isObsolete e)).bind
      intro obsolete w ⟨⟨answer, same⟩, _⟩
      simp only [← live] at answer
      split
      · next older => exact Ends.pure (.made (.obsolete permitted (answer.mp older)) (.of_same same))
      · next newest =>
        have newest : ¬(s.archive t).Obsoletes e := mt answer.mpr newest
        have plan : (s.archive t).Sets good e payload prune _ _ :=
          .written permitted newest (proof token rfl)
        apply (writing_ends apart lists same plan).bind
        rintro _ x ⟨rfl, made⟩
        exact Ends.pure (.made plan made)

theorem comes_clear (apart : s.Apart) (lists : (s.archive t).entries.contents.Lists documents)
    (authorises : s.Authorises t good) (identity : Identity) (path : Path) :
    s.Comes t ((s.archive t).Clears s good identity path) (s.clear identity path) := by
  have live (d : Document) := (Archive.documents_of_lists lists).2 d
  apply (reading_ends apart (.refl _) (lists.get identity path)).bind
  intro found u ⟨⟨here, same⟩, credentials⟩
  simp only [← live] at here
  cases found with
  | none =>
    refine Ends.throw (.made (.absent fun d member place => ?_) (.of_same same))
    cases (here d).mpr ⟨member, place⟩
  | some d =>
    obtain ⟨there, place⟩ := (here d).mp rfl
    apply (authorising_ends authorises same credentials rfl .failed).bind
    intro o v ⟨proof, same⟩
    cases o with
    | none => exact Ends.throw (.made (.unauthorised there place) (.of_same same))
    | some token =>
      let e := s.clearing d identity path
      apply (reading_ends apart same (Archive.reads_prunable lists e)).bind
      rintro _ w ⟨⟨rfl, same⟩, _⟩
      have plan := Archive.Clears.written there place (proof token rfl)
      apply (writing_ends apart lists same plan).bind
      intro _ x ⟨_, made⟩
      exact Ends.pure (.made plan made)

theorem comes_onCredentials (apart : s.Apart) (w : Vault.Config → CredentialWork α)
    {g : α → Reply} {c : Call} (aside : c.onCredentials)
    (performs : ∀ x, (s.archive t).Performs s good c (.ok (g x)) []) :
    s.Comes t ((s.archive t).Performs s good c) (g <$> s.onCredentials w) := by
  have untouched : (s.onCredentials w).Ends t
      (fun x u => (s.archive t).Came ((s.archive t).Performs s good c) (.ok (g x)) (s.archive u))
      fun e u => (s.archive t).Came ((s.archive t).Performs s good c) (.error e) (s.archive u) := by
    apply (onCredentials_ends apart w (fun _ => True) fun _ _ => Ends.any _ _).mono
    · intro x u ⟨_, same⟩
      rw [same]
      exact .made (performs x) (.of_same (.refl _))
    · rintro _ u ⟨⟨error, rfl⟩, same⟩
      rw [same]
      exact .made (.barred aside error) (.of_same (.refl _))
  exact untouched.map fun _ _ => id

theorem comes_perform (apart : s.Apart) (lists : (s.archive t).entries.contents.Lists documents)
    (authorises : s.Authorises t good) (c : Call) :
    s.Comes t ((s.archive t).Performs s good c) (s.perform c) := by
  cases c with
  | set identity path payload timestamp prune =>
    exact (comes_set apart lists authorises identity path payload timestamp prune).map .set
  | setAtAddress address path payload timestamp prune =>
    show s.Comes t _ (Reply.outcome <$> s.setAtAddress address path payload timestamp prune)
    unfold setAtAddress
    split
    · next identity named =>
      apply (comes_set apart lists authorises identity path payload timestamp prune).map
      exact .setAtAddress named
    · next error misnamed =>
      rw [map_pure]
      exact Ends.pure (.made (.misnamed misnamed) (.of_same (.refl _)))
  | clear identity path => exact (comes_clear apart lists authorises identity path).map .clear
  | ingest e token payload =>
    have ingests := Archive.came_ingest lists s.share e token payload
    exact Comes.map (ends_onArchive apart ingests) .ingest
  | ingestPayload identity path payload =>
    have receives := Archive.came_ingestPayload lists identity path payload
    exact Comes.map (ends_onArchive apart receives) .ingestPayload
  | addIdentity keypair => exact comes_onCredentials apart _ rfl fun _ => .done rfl
  | addShare keypair => exact comes_onCredentials apart _ rfl fun _ => .done rfl
  | mint share user mode persist => exact comes_onCredentials apart _ rfl (.pack rfl)
  | delegate pack recipient restriction => exact comes_onCredentials apart _ rfl (.pack rfl)
  | keep pack => exact comes_onCredentials apart _ rfl fun _ => .done rfl
  | unlock => exact comes_onCredentials apart _ rfl fun _ => .done rfl
  | wipe => exact comes_onCredentials apart _ rfl fun _ => .done rfl

theorem came_of_call (apart : s.Apart) (lists : (s.archive t).entries.contents.Lists documents)
    (authorises : s.Authorises t good) (c : Call) :
    (s.archive t).Came ((s.archive t).Performs s good c) ((s.perform c).runOn t).1
      (s.archive ((s.perform c).runOn t).2) := by
  rcases (comes_perform apart lists authorises c).cases with ⟨r, answer, came⟩ | ⟨e, failure, came⟩
  · rw [answer]
    exact came
  · rw [failure]
    exact came

end Store

end DocumentShare
