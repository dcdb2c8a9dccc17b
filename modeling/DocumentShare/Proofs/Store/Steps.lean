import DocumentShare.Proofs.Store.Performing
import DocumentShare.Proofs.Store.Writing

/-!
# Calls follow the ledger

While the backends of a store work, each of its calls is a step of the ledger that it stands for:
`Ledger.Sets`, `Ledger.Clears` and `Ledger.Ingests` say which replies there can be and what each does
to the ledger. The credentials may fail in any way; calls on them leave the ledger alone.
`Store.Tracks.perform` puts the calls together.
-/

namespace DocumentShare

open Work

variable [Crypto]

namespace Ledger

/-- What writing an entry made here comes to, and the ledger afterwards. -/
inductive Sets (l : Ledger) (e : Entry) (prune : Bool) : Except StoreError Outcome → Ledger → Prop
  | prevented {stale : List Document} (pruned : l.Stale e stale) (some : stale ≠ [])
      (forbidden : prune = false) : Sets l e prune (.ok (.pruningPrevented stale)) l
  | failed (error : AuthError) : Sets l e prune (.error (.auth error)) l
  | unauthorised : Sets l e prune (.ok (.refused (.authorisation (Store.noCapability e)))) l
  | obsolete (h : l.Obsoletes e) : Sets l e prune (.ok .obsolete) l
  | written {t : Token} {previous : Option Document} {stale : List Document} (newest : ¬l.Obsoletes e)
      (upright : t.capability.Upright) (here : l.At e.identity e.path previous)
      (pruned : l.Stale e stale) (permitted : stale ≠ [] → prune = true) :
      Sets l e prune (.ok (.success ⟨e, t⟩ (stale.map Document.path)))
        (((l.bring ⟨e, t⟩ true).insertion ⟨e, t⟩ previous stale).tell (.documentSet ⟨e, t⟩))

/-- What clearing a document comes to, and the ledger afterwards. -/
inductive Clears (s : Store) (l : Ledger) (identity : Identity) (path : Path) :
    Except StoreError Document → Ledger → Prop
  | absent (here : l.At identity path none) :
      Clears s l identity path
        (.error (.validation (.noSuchDocument (toString path) (toString identity)))) l
  | failed (error : AuthError) : Clears s l identity path (.error (.auth error)) l
  | unauthorised {d : Document} (here : l.At identity path (some d)) :
      Clears s l identity path
        (.error (.authorisation (Store.noCapability (s.clearing d identity path)))) l
  | written {d : Document} {t : Token} {stale : List Document} (here : l.At identity path (some d))
      (upright : t.capability.Upright) (pruned : l.Stale (s.clearing d identity path) stale) :
      Clears s l identity path (.ok ⟨s.clearing d identity path, t⟩)
        (((l.bring ⟨s.clearing d identity path, t⟩ true).insertion ⟨s.clearing d identity path, t⟩
          (some d) stale).tell (.documentSet ⟨s.clearing d identity path, t⟩))

end Ledger

/-! ### Plans of calls -/

namespace Archive

variable {s : Store} {a : Archive} {l : Ledger} {steps : List Step}

theorem Sets.leads {e : Entry} {payload : Bytes} {prune : Bool} {r : Except StoreError Outcome}
    (sets : a.Sets (·.token.capability.Upright) e payload prune r steps) (tracks : a.Tracks l)
    (balanced : l.Balanced 0) (room : l.documents.card + 1 < 256 ^ 8)
    (named : Crypto.digest payload = e.payloadDigest) :
    ∃ l', l.Sets e prune r l' ∧ a.holdings.Leads steps l' := by
  cases sets with
  | prevented some forbidden =>
    exact ⟨l, .prevented (tracks.stale e) some forbidden, tracks.leads_nil⟩
  | failed _ error => exact ⟨l, .failed error, tracks.leads_nil⟩
  | unauthorised _ => exact ⟨l, .unauthorised, tracks.leads_nil⟩
  | obsolete _ older => exact ⟨l, .obsolete ((tracks.obsoletes_iff e).mp older), tracks.leads_nil⟩
  | @written t permitted newest upright =>
    have newest : ¬l.Obsoletes e := mt (tracks.obsoletes_iff e).mpr newest
    exact ⟨_, .written newest upright (tracks.inPlaceOf ⟨e, t⟩) (tracks.stale e) permitted,
      tracks.leads_written balanced room (Document.decode_encode upright) named⟩

theorem Clears.leads {identity : Identity} {path : Path} {r : Except StoreError Document}
    (clears : a.Clears s (·.token.capability.Upright) identity path r steps) (tracks : a.Tracks l)
    (balanced : l.Balanced 0) (room : l.documents.card + 1 < 256 ^ 8) :
    ∃ l', l.Clears s identity path r l' ∧ a.holdings.Leads steps l' := by
  obtain ⟨_, member⟩ := tracks.documents
  have here {d : Document} (live : d ∈ a.documents) (place : d.identity = identity ∧ d.path = path) :
      l.At identity path (some d) := by
    intro e
    rw [Option.some.injEq, ← member]
    constructor
    · rintro rfl
      exact ⟨live, place⟩
    · intro ⟨there, place'⟩
      refine tracks.sound.distinct d ((member d).mp live) e ((member e).mp there) ?_
      exact Document.key_inj.mpr ⟨place.1.trans place'.1.symm, place.2.trans place'.2.symm⟩
  cases clears with
  | absent none =>
    refine ⟨l, .absent fun d => ⟨by rintro ⟨⟩, fun ⟨live, place⟩ => ?_⟩, tracks.leads_nil⟩
    exact absurd place (none d ((member d).mpr live))
  | failed error => exact ⟨l, .failed error, tracks.leads_nil⟩
  | unauthorised live place => exact ⟨l, .unauthorised (here live place), tracks.leads_nil⟩
  | @written d t live place upright =>
    let cleared : Document := ⟨s.clearing d identity path, t⟩
    have previous : a.inPlaceOf cleared = some d :=
      (tracks.inPlaceOf cleared d).mpr ⟨(member d).mp live, place⟩
    have named : Crypto.digest [] = cleared.entry.payloadDigest := rfl
    have leads := tracks.leads_written balanced room (Document.decode_encode upright) named
    rw [previous] at leads
    exact ⟨_, .written (here live place) upright (tracks.stale cleared.entry), leads⟩

end Archive

/-! ### Any call -/

/-- What a call comes to, and the ledger afterwards. -/
inductive Ledger.Performs (s : Store) (l : Ledger) :
    Call → Except StoreError Reply → Ledger → Prop
  | set {identity : Identity} {path : Path} {payload : Bytes} {timestamp : UInt64} {prune : Bool}
      {r : Except StoreError Outcome} {l' : Ledger}
      (sets : l.Sets (Store.entryOf s.share identity path timestamp payload) prune r l') :
      Performs s l (.set identity path payload timestamp prune) (r.map .outcome) l'
  | setAtAddress {address : String} {identity : Identity} {path : Path} {payload : Bytes}
      {timestamp : UInt64} {prune : Bool} {r : Except StoreError Outcome} {l' : Ledger}
      (named : Identifier.parse .identity address = .ok identity)
      (sets : l.Sets (Store.entryOf s.share identity path timestamp payload) prune r l') :
      Performs s l (.setAtAddress address path payload timestamp prune) (r.map .outcome) l'
  | misnamed {address : String} {path : Path} {payload : Bytes} {timestamp : UInt64} {prune : Bool}
      {error : ValidationError} (misnamed : Identifier.parse .identity address = .error error) :
      Performs s l (.setAtAddress address path payload timestamp prune)
        (.ok (.outcome (.refused (.validation error)))) l
  | clear {identity : Identity} {path : Path} {r : Except StoreError Document} {l' : Ledger}
      (clears : l.Clears s identity path r l') :
      Performs s l (.clear identity path) (r.map .document) l'
  | ingest {e : Entry} {t : Token} {payload : Option Bytes} {o : Outcome} {l' : Ledger}
      (ingests : l.Ingests s.share e t payload o l') :
      Performs s l (.ingest e t payload) (.ok (.outcome o)) l'
  | arrived {identity : Identity} {path : Path} {payload : Bytes} {d : Document}
      (live : d ∈ l.documents) (here : d.identity = identity ∧ d.path = path) :
      Performs s l (.ingestPayload identity path payload) (.ok (.arrived true))
        ((l.bring d true).tell (.payloadIngest d))
  | unclaimed {identity : Identity} {path : Path} {payload : Bytes} :
      Performs s l (.ingestPayload identity path payload) (.ok (.arrived false)) l
  | pack {c : Call} (p : Pack) : Performs s l c (.ok (.pack p)) l
  | done {c : Call} : Performs s l c (.ok .done) l
  | barred {c : Call} (error : AuthError) : Performs s l c (.error (.auth error)) l

namespace Archive

variable {s : Store} {a : Archive} {l : Ledger} {c : Call} {r : Except StoreError Reply}
  {steps : List Step}

/-- Every call is a step of the ledger. -/
theorem Performs.leads (performs : a.Performs s (·.token.capability.Upright) c r steps)
    (tracks : a.Tracks l) (balanced : l.Balanced 0) (room : l.documents.card + 1 < 256 ^ 8) :
    ∃ l', l.Performs s c r l' ∧ a.holdings.Leads steps l' := by
  cases performs with
  | set sets =>
    obtain ⟨l', done, leads⟩ := sets.leads tracks balanced room rfl
    exact ⟨l', .set done, leads⟩
  | setAtAddress named sets =>
    obtain ⟨l', done, leads⟩ := sets.leads tracks balanced room rfl
    exact ⟨l', .setAtAddress named done, leads⟩
  | misnamed misnamed => exact ⟨l, .misnamed misnamed, tracks.leads_nil⟩
  | clear clears =>
    obtain ⟨l', done, leads⟩ := clears.leads tracks balanced room
    exact ⟨l', .clear done, leads⟩
  | ingest ingests =>
    obtain ⟨l', ⟨o, rfl, done⟩, leads⟩ := ingests.leads tracks balanced fun _ => room
    exact ⟨l', .ingest done, leads⟩
  | ingestPayload receives =>
    cases receives with
    | @arrived d live here matching =>
      obtain ⟨_, member⟩ := tracks.documents
      have named := (matchesPayload_iff.mp matching).2
      exact ⟨_, .arrived ((member d).mp live) here, tracks.leads_arrival named (.payloadIngest d)⟩
    | unclaimed => exact ⟨l, .unclaimed, tracks.leads_nil⟩
  | pack _ p => exact ⟨l, .pack p, tracks.leads_nil⟩
  | done _ => exact ⟨l, .done, tracks.leads_nil⟩
  | barred _ error => exact ⟨l, .barred error, tracks.leads_nil⟩

end Archive

/-! ### Calls -/

namespace Store

variable {α : Type} {s : Store} {t : Site} {l : Ledger}

omit [Crypto] in
/-- The documents that the store has. -/
def documents (s : Store) (t : Site) : Finset Document := (s.archive t).documents.toFinset

/-- The backends of the store work and stand for the ledger. -/
def Tracks (s : Store) (t : Site) (l : Ledger) : Prop := (s.archive t).Tracks l

namespace Tracks

theorem documents (tracks : s.Tracks t l) : s.documents t = l.documents := by
  obtain ⟨_, member⟩ := Archive.Tracks.documents tracks
  ext d
  rw [Store.documents, List.mem_toFinset, member]

theorem reading (apart : s.Apart) {w : ArchiveWork α} {good : α → Prop}
    (h : w.Answers (s.archive t) fun x a => good x ∧ a.Tracks l) :
    (s.onArchive w).Answers t fun x u => good x ∧ s.Tracks u l :=
  ends_onArchive apart h

theorem comes {w : SiteWork StoreError α} {plans : Except StoreError α → List Step → Prop}
    {does : Except StoreError α → Ledger → Prop} (tracks : s.Tracks t l) (comes : s.Comes t plans w)
    (leads : ∀ r steps, plans r steps → ∃ l', does r l' ∧ (s.archive t).holdings.Leads steps l') :
    w.Ends t (fun x u => ∃ l', does (.ok x) l' ∧ s.Tracks u l')
      fun e u => ∃ l', does (.error e) l' ∧ s.Tracks u l' :=
  comes.mono (fun _ _ came => came.tracks tracks leads) fun _ _ came => came.tracks tracks leads

theorem write (apart : s.Apart) (tracks : s.Tracks t l) (balanced : l.Balanced 0)
    (room : l.documents.card + 1 < 256 ^ 8) {d : Document} (upright : d.token.capability.Upright)
    {payload : Bytes} (named : Crypto.digest payload = d.entry.payloadDigest)
    {stale : List Document} (pruned : l.Stale d.entry stale) :
    (s.onArchive (Archive.write d payload stale)).Answers t fun paths u =>
      paths = stale.map Document.path ∧ ∃ previous, l.At d.identity d.path previous ∧
        s.Tracks u (((l.bring d true).insertion d previous stale).tell (.documentSet d)) := by
  obtain rfl := pruned.unique (Archive.Tracks.stale tracks d.entry)
  have makes := ArchiveWork.Makes.write (Archive.Tracks.lists tracks) d payload
  have leads := Archive.Tracks.leads_written tracks balanced room (Document.decode_encode upright) named
  apply (ends_onArchive apart (Archive.Tracks.makes tracks makes leads)).mono
  · intro paths u ⟨answer, tracks'⟩
    exact ⟨answer, _, Archive.Tracks.inPlaceOf tracks d, tracks'⟩
  · intro _ _
    exact id

theorem set (apart : s.Apart) (tracks : s.Tracks t l) (balanced : l.Balanced 0)
    (room : l.documents.card + 1 < 256 ^ 8) (identity : Identity) (path : Path) (payload : Bytes)
    (timestamp : UInt64) (prune : Bool) :
    (s.set identity path payload timestamp prune).Ends t
      (fun o u => ∃ l', l.Sets (entryOf s.share identity path timestamp payload) prune (.ok o) l' ∧
        s.Tracks u l')
      (fun e u => ∃ l', l.Sets (entryOf s.share identity path timestamp payload) prune (.error e) l' ∧
        s.Tracks u l') :=
  tracks.comes (comes_set apart (Archive.Tracks.lists tracks) (authorises_upright apart) identity path
    payload timestamp prune) fun _ _ sets => sets.leads tracks balanced room rfl

theorem clear (apart : s.Apart) (tracks : s.Tracks t l) (balanced : l.Balanced 0)
    (room : l.documents.card + 1 < 256 ^ 8) (identity : Identity) (path : Path) :
    (s.clear identity path).Ends t
      (fun d u => ∃ l', l.Clears s identity path (.ok d) l' ∧ s.Tracks u l')
      (fun e u => ∃ l', l.Clears s identity path (.error e) l' ∧ s.Tracks u l') :=
  tracks.comes (comes_clear apart (Archive.Tracks.lists tracks) (authorises_upright apart) identity path)
    fun _ _ clears => clears.leads tracks balanced room

theorem ingest (apart : s.Apart) (tracks : s.Tracks t l) (balanced : l.Balanced 0) {e : Entry}
    (room : ¬l.Obsoletes e → l.documents.card + 1 < 256 ^ 8) (token : Token)
    (payload : Option Bytes) :
    (s.ingest e token payload).Answers t fun outcome u => ∃ l',
      l.Ingests s.share e token payload outcome l' ∧ s.Tracks u l' := by
  have came := Archive.came_ingest (Archive.Tracks.lists tracks) s.share e token payload
  apply (tracks.comes (ends_onArchive apart came) fun _ _ ingests =>
    ingests.leads tracks balanced room).mono
  · rintro outcome u ⟨l', ⟨o, same, ingests⟩, tracks⟩
    cases same
    exact ⟨l', ingests, tracks⟩
  · rintro _ u ⟨_, ⟨o, failed, _⟩, _⟩
    cases failed

theorem perform (apart : s.Apart) (tracks : s.Tracks t l) (balanced : l.Balanced 0)
    (room : l.documents.card + 1 < 256 ^ 8) (c : Call) :
    ∃ l', l.Performs s c ((s.perform c).runOn t).1 l' ∧ s.Tracks ((s.perform c).runOn t).2 l' :=
  (came_of_call apart (Archive.Tracks.lists tracks) (authorises_upright apart) c).tracks tracks
    fun _ _ performs => performs.leads tracks balanced room

end Tracks

end Store

end DocumentShare
