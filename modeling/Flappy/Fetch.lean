/-
Downloading and verifying binary packages (`lib/transaction_fetch.c`).

The entries of a transaction are split into those to be downloaded and those to
be verified where they are.  Failures are passed on as error codes, and some of
them are read from `errno` after a function that does not set it: a package that
was not verified may come out as verified.

What is outside (files, network, signatures) is a parameter.  It acts on a
`World` that holds `errno` and `fetchLastErrCode`.

* `transactionFetch` — with the checks that were passed;
* `SilentVerify`, `SilentDownload` — an entry is about to be passed over;
* `transactionFetch_verified_iff` — all entries are verified iff none is passed over.
-/
import Flappy.Rpool

open CStr

namespace Flappy

/-! ### What is outside -/

/-- The process as these functions see it. -/
structure World (σ : Type) where
  errno : Nat
  fetchLastErrCode : Nat
  /-- Everything else. -/
  rest : σ

/-- The bytes of a SHA256 hash. -/
abbrev Digest := List UInt8

/-- Files, network and signatures. -/
structure Outside (σ : Type) where
  /-- `access (path, R_OK) == 0`. -/
  access : Str → World σ → World σ × Bool
  /-- `flappy_fetch_file_sha256`; `none` if it returns -1. -/
  fetchFileSha256 : Str → World σ → World σ × Option Digest
  /-- `flappy_file_sha256_raw`. -/
  fileSha256Raw : Str → World σ → World σ × Option Digest
  /-- `flappy_verify_signature`. -/
  verifySignature : Repo → Str → Digest → World σ → World σ × Bool
  remove : Str → World σ → World σ
  /-- `flappy_set_cb_state`. -/
  setCbState : World σ → World σ
  /-- A file that cannot be opened or read leaves an error behind. -/
  fileSha256Raw_errno : ∀ file w, (fileSha256Raw file w).2 = none →
    (fileSha256Raw file w).1.errno ≠ 0

def eperm : Nat := 1
def einval : Nat := 22
def erange : Nat := 34
def enotsup : Nat := 95
def enobufs : Nat := 105

/-- `FETCH_UNCHANGED`. -/
def fetchUnchanged : Nat := 20

/-- `PATH_MAX`. -/
def pathMax : Nat := 4096

/-! ### Paths -/

/-- `flappy_repository_is_remote`. -/
def repositoryIsRemote (uri : Str) : Bool :=
  "http://".toList.isPrefixOf uri || "https://".toList.isPrefixOf uri ||
    "ftp://".toList.isPrefixOf uri

/-- `repo->is_remote`, as `flappy_repo_open` sets it. -/
def Repo.isRemote (repo : Repo) : Bool := repositoryIsRemote repo.uri

/-- `flappy_rpool_get_repo`, with the repository itself. -/
def openRepo (pool : Rpool) (url : Str) : Option Repo :=
  (rpoolGetRepo pool url).bind fun i => pool.queue[i]?

/-- The file of a binary package. -/
def binpkgFile (dir pkgver arch : Str) : Str :=
  dir ++ "/".toList ++ pkgver ++ ".".toList ++ arch ++ ".flappy".toList

/-- The file of a signature, as it fits into the buffer. -/
def sigFile (dir pkgver arch : Str) : Str :=
  (binpkgFile dir pkgver arch ++ ".sig2".toList).take (pathMax - 1)

/-- Cut the `.sig2` off. -/
def stripSig (path : Str) : Str := path.take (path.length - ".sig2".toList.length)

/-- `flappy_pkg_path`. -/
def pkgPath (cachedir : Str) (pkgd : PkgDict) : Except Nat Str :=
  match pkgd.architecture, pkgd.repository with
  | some arch, some repoloc =>
    let repoloc := if repositoryIsRemote repoloc then cachedir else repoloc
    let path := binpkgFile repoloc pkgd.pkgver arch
    if pathMax ≤ path.length then .error enobufs else .ok path
  | _, _ => .error einval

/-! ### Hashes -/

/-- A hexadecimal digit. -/
def hexDigit (n : Nat) : Char :=
  if n < 10 then Char.ofNat ('0'.toNat + n) else Char.ofNat ('a'.toNat + n - 10)

/-- The loop of `sha256_digest_compare`. -/
def digestCompare : Str → Digest → Bool
  | [], _ => true
  | high :: low :: sha256, byte :: digest =>
    high = hexDigit (byte.toNat / 16) && low = hexDigit (byte.toNat % 16) &&
      digestCompare sha256 digest
  | _, _ => false

/-- `sha256_digest_compare`. -/
def sha256DigestCompare (sha256 : Str) (digest : Digest) : Bool :=
  sha256.length = 64 && digest.length = 32 && digestCompare sha256 digest

section

variable {σ : Type} (out : Outside σ) (cachedir : Str) (pool : Rpool)

/-- `flappy_verify_file_signature`, with the hash of the file. -/
def verifyFileSignature (repo : Repo) (fname : Str) (w : World σ) : World σ × Option Digest :=
  match out.fileSha256Raw fname w with
  | (w, none) => (w, none)
  | (w, some digest) =>
    match out.verifySignature repo ((fname ++ ".sig2".toList).take (pathMax - 1)) digest w with
    | (w, true) => (w, some digest)
    | (w, false) => (w, none)

/-- `flappy_remote_binpkg_exists`. -/
def remoteBinpkgExists (pkgd : PkgDict) (w : World σ) : World σ × Bool :=
  match pkgd.architecture with
  | none => (w, false)
  | some arch =>
    let path := sigFile cachedir pkgd.pkgver arch
    match out.access path w with
    | (w, false) => (w, false)
    | (w, true) => out.access (stripSig path) w

/-! ### One entry -/

/-- A check that a binary package passed. -/
inductive Check where
  /-- Its hash is signed with the key of the repository. -/
  | signature (repo : Repo) (digest : Digest)
  /-- Its hash is the one of the repository's index. -/
  | sha256 (repo : Repo) (digest : Digest)

/-- `verify_binpkg`: the code, and the check that was passed.  `none` if a property is used
that is not there. -/
def verifyBinpkg (w : World σ) (pkgd : PkgDict) : Option (World σ × Nat × Option Check) :=
  match pkgPath cachedir pkgd with
  | .error e => some (w, e, none)
  | .ok binfile =>
    match pkgd.repository.bind (openRepo pool) with
    | none => some (w, w.errno, none)
    | some repo =>
      let w := out.setCbState w
      if repo.isRemote then
        match verifyFileSignature out repo binfile w with
        | (w, some digest) => some (w, 0, some (.signature repo digest))
        | (w, none) =>
          let w := out.setCbState (out.setCbState w)
          let w := out.remove binfile w
          let sig := binfile ++ ".sig2".toList
          some (if sig.length < pathMax then out.remove sig w else w, eperm, none)
      else
        match pkgd.filenameSha256 with
        | none => none
        | some sha256 =>
          match out.fileSha256Raw binfile w with
          | (w, none) => some (out.setCbState w, w.errno, none)
          | (w, some digest) =>
            if sha256DigestCompare sha256 digest then some (w, 0, some (.sha256 repo digest))
            else some (out.setCbState w, erange, none)

/-- The code of a failed download. -/
def fetchError (w : World σ) : Nat :=
  if w.fetchLastErrCode ≠ 0 then w.fetchLastErrCode else w.errno

/-- The end of `download_binpkg`: the signature, and what is removed if it is not valid. -/
def downloadVerify (repo : Repo) (sig : Str) (digest : Digest) (w : World σ) :
    World σ × Nat × Option Check :=
  let (w, passed) : World σ × Option Digest :=
    -- not modified: verify by file instead
    if w.fetchLastErrCode = fetchUnchanged then
      match verifyFileSignature out repo (stripSig sig) w with
      | (w, some digest) => (w, some digest)
      | (w, none) => (out.remove sig (out.remove (stripSig sig) w), none)
    else
      match out.verifySignature repo sig digest w with
      | (w, true) => (w, some digest)
      | (w, false) => (out.remove (stripSig sig) (out.remove sig w), none)
  match passed with
  | some digest => (w, 0, some (.signature repo digest))
  | none => (out.setCbState (out.setCbState w), eperm, none)

/-- The part of `download_binpkg` that downloads: the hash, or the code. -/
def downloadFetch (repoloc pkgver arch : Str) (w : World σ) : World σ × Except Nat Digest :=
  let url := sigFile repoloc pkgver arch
  match out.fetchFileSha256 url (out.setCbState w) with
  | (w, none) => (out.setCbState w, .error (fetchError w))
  | (w, some _) =>
    match out.fetchFileSha256 (stripSig url) (out.setCbState w) with
    | (w, none) => (out.setCbState w, .error (fetchError w))
    | (w, some digest) => (out.setCbState w, .ok digest)

/-- `download_binpkg`: the code, and the check that was passed. -/
def downloadBinpkg (w : World σ) (pkgd : PkgDict) : Option (World σ × Nat × Option Check) :=
  match pkgd.repository with
  | none => none
  | some repoloc =>
    if repositoryIsRemote repoloc = false then some (w, enotsup, none)
    else
      match pkgd.architecture with
      | none => none
      | some arch =>
        match downloadFetch out repoloc pkgd.pkgver arch w with
        | (w, .error e) => some (w, e, none)
        | (w, .ok digest) =>
          match openRepo pool repoloc with
          | none => some (w, w.errno, none)
          | some repo =>
            some (downloadVerify out repo (sigFile cachedir pkgd.pkgver arch) digest w)

/-! ### All entries -/

/-- Is there a binary package for an entry of this type? -/
def TransType.hasBinpkg : TransType → Bool
  | .remove | .hold | .configure => false
  | .unknown | .install | .reinstall | .update | .download => true

/-- The first loop of `flappy_transaction_fetch`: what to download and what to verify. -/
def fetchSplit : List PkgDict → World σ → Option (World σ × List PkgDict × List PkgDict)
  | [], w => some (w, [], [])
  | obj :: pkgs, w =>
    if obj.transaction.hasBinpkg = false then fetchSplit pkgs w
    else
      match obj.repository with
      | none => none
      | some repoloc =>
        let (w, download) : World σ × Bool :=
          if repositoryIsRemote repoloc then
            let (w, cached) := remoteBinpkgExists out cachedir obj w
            (w, !cached)
          else (w, false)
        (fetchSplit pkgs w).map fun (w, fetch, verify) =>
          if download then (w, obj :: fetch, verify) else (w, fetch, obj :: verify)

end

/-- A run of one of the other loops: the code, and the checks that were passed, each with the
world in which the turn of its entry began. -/
structure Checked (σ : Type) where
  world : World σ
  rv : Nat := 0
  checks : List (PkgDict × World σ × Check) := []

/-- The second and the third loop: they end with the first code that is not 0. -/
def checkLoop {σ : Type} (step : World σ → PkgDict → Option (World σ × Nat × Option Check)) :
    List PkgDict → Checked σ → Option (Checked σ)
  | [], c => some c
  | obj :: pkgs, c =>
    match step c.world obj with
    | none => none
    | some (world, rv, check) =>
      let checks := c.checks ++ (check.map fun check => (obj, c.world, check)).toList
      if rv ≠ 0 then some ⟨world, rv, checks⟩ else checkLoop step pkgs ⟨world, 0, checks⟩

/-- `flappy_transaction_fetch`. -/
def transactionFetch {σ : Type} (out : Outside σ) (cachedir : Str) (pool : Rpool)
    (pkgs : List PkgDict) (w : World σ) : Option (Checked σ) :=
  match fetchSplit out cachedir pkgs w with
  | none => none
  | some (world, fetch, verify) =>
    match checkLoop (downloadBinpkg out cachedir pool) fetch { world } with
    | none => none
    | some c =>
      if c.rv ≠ 0 then some c else checkLoop (verifyBinpkg out cachedir pool) verify c

/-! ### Entries that are passed over -/

theorem openRepo_uri {pool : Rpool} {url : Str} {repo : Repo} (h : openRepo pool url = some repo) :
    repo.uri = url := by
  obtain ⟨i, hi, hrepo⟩ := Option.bind_eq_some_iff.mp h
  rw [rpoolGetRepo, List.findIdx?_eq_some_iff_getElem] at hi
  obtain ⟨hlt, huri, -⟩ := hi
  rw [List.getElem?_eq_getElem hlt, Option.some.injEq] at hrepo
  rw [← hrepo]
  simpa using huri

section

variable {σ : Type} (out : Outside σ) (cachedir : Str) (pool : Rpool)

/-- The entry is about to be taken for verified: its repository is not open, and `errno` is 0. -/
def SilentVerify (w : World σ) (pkgd : PkgDict) : Prop :=
  (∃ path, pkgPath cachedir pkgd = .ok path) ∧ pkgd.repository.bind (openRepo pool) = none ∧
    w.errno = 0

/-- The entry is about to be taken for downloaded and verified: a download fails and leaves no
code behind, or its repository is not open and `errno` is 0 after the download. -/
def SilentDownload (w : World σ) (pkgd : PkgDict) : Prop :=
  ∃ repoloc arch, pkgd.repository = some repoloc ∧ repositoryIsRemote repoloc = true ∧
    pkgd.architecture = some arch ∧
    ((downloadFetch out repoloc pkgd.pkgver arch w).2 = .error 0 ∨
      (∃ digest, (downloadFetch out repoloc pkgd.pkgver arch w).2 = .ok digest) ∧
        openRepo pool repoloc = none ∧ (downloadFetch out repoloc pkgd.pkgver arch w).1.errno = 0)

/-- The file has this hash, and the signature next to it is one of the repository for it. -/
def SignedFile (repo : Repo) (file : Str) (digest : Digest) (w : World σ) : Prop :=
  (out.fileSha256Raw file w).2 = some digest ∧
    (out.verifySignature repo ((file ++ ".sig2".toList).take (pathMax - 1)) digest
      (out.fileSha256Raw file w).1).2 = true

/-- The package was downloaded from here on, and the signature that came with it is one of the
repository for what came, or for the file in the cache if that was not modified. -/
def SignedDownload (pkgd : PkgDict) (repo : Repo) (digest : Digest) (w : World σ) : Prop :=
  ∃ repoloc arch w₁ fetched, pkgd.repository = some repoloc ∧ pkgd.architecture = some arch ∧
    downloadFetch out repoloc pkgd.pkgver arch w = (w₁, .ok fetched) ∧
    if w₁.fetchLastErrCode = fetchUnchanged then
      SignedFile out repo (stripSig (sigFile cachedir pkgd.pkgver arch)) digest w₁
    else
      digest = fetched ∧
        (out.verifySignature repo (sigFile cachedir pkgd.pkgver arch) digest w₁).2 = true

/-- The check is the one for the repository of the entry, when its turn has begun in the world
`w`: for a remote one the signature of the package's own file, in the cache or just downloaded,
for a local one the hash of the index. -/
def Check.Fits (pkgd : PkgDict) (w : World σ) : Check → Prop
  | .signature repo digest =>
    pkgd.repository.bind (openRepo pool) = some repo ∧ repo.isRemote = true ∧
      ((∃ file, pkgPath cachedir pkgd = .ok file ∧
          SignedFile out repo file digest (out.setCbState w)) ∨
        SignedDownload out cachedir pkgd repo digest w)
  | .sha256 repo digest =>
    pkgd.repository.bind (openRepo pool) = some repo ∧ repo.isRemote = false ∧
      (∃ file, pkgPath cachedir pkgd = .ok file ∧
        (out.fileSha256Raw file (out.setCbState w)).2 = some digest) ∧
      ∃ sha256, pkgd.filenameSha256 = some sha256 ∧ sha256DigestCompare sha256 digest = true

end

/-- What one entry comes to: with code 0, it was checked unless it was passed over. -/
structure EntryOk {σ : Type} (fits : Check → Prop) (silent : Prop)
    (r : World σ × Nat × Option Check) : Prop where
  silent : r.2.1 = 0 → (r.2.2 = none ↔ silent)
  fits : ∀ check, r.2.2 = some check → r.2.1 = 0 ∧ fits check

namespace EntryOk

variable {σ : Type} {fits : Check → Prop} {silent : Prop}

theorem of_code {w : World σ} {rv : Nat} (h : rv = 0 → silent) :
    EntryOk fits silent (w, rv, none) :=
  ⟨fun hrv => iff_of_true rfl (h hrv), fun _ hc => by cases hc⟩

theorem of_check {w : World σ} {check : Check} (hs : ¬ silent) (h : fits check) :
    EntryOk fits silent (w, 0, some check) := by
  refine ⟨fun _ => iff_of_false (by simp) hs, fun c hc => ⟨rfl, ?_⟩⟩
  rw [← Option.some.inj hc]
  exact h

end EntryOk

section

variable {σ : Type} {out : Outside σ} {cachedir : Str} {pool : Rpool}

/-- A file signature that was verified is one of the file's hash. -/
theorem verifyFileSignature_some {repo : Repo} {fname : Str} {w w' : World σ} {digest : Digest}
    (h : verifyFileSignature out repo fname w = (w', some digest)) :
    SignedFile out repo fname digest w := by
  rw [verifyFileSignature] at h
  rw [SignedFile]
  cases hraw : out.fileSha256Raw fname w with
  | mk w₁ raw =>
    cases raw with
    | none => simp [hraw] at h
    | some d =>
      simp only [hraw] at h
      cases hv : out.verifySignature repo ((fname ++ ".sig2".toList).take (pathMax - 1)) d w₁ with
      | mk w₂ valid =>
        cases valid with
        | false => simp only [hv, Prod.mk.injEq, reduceCtorEq, and_false] at h
        | true =>
          simp only [hv, Prod.mk.injEq, Option.some.injEq] at h
          obtain ⟨-, rfl⟩ := h
          exact ⟨rfl, congrArg Prod.snd hv⟩

/-- The code of a path that does not exist is not 0. -/
theorem pkgPath_error {pkgd : PkgDict} {e : Nat} (h : pkgPath cachedir pkgd = .error e) :
    e ≠ 0 := by
  rw [pkgPath] at h
  cases ha : pkgd.architecture with
  | none =>
    simp only [ha, Except.error.injEq] at h
    rw [← h]
    decide
  | some arch =>
    cases hr : pkgd.repository with
    | none =>
      simp only [ha, hr, Except.error.injEq] at h
      rw [← h]
      decide
    | some repoloc =>
      simp only [ha, hr] at h
      by_cases hlen : pathMax ≤ (binpkgFile (if repositoryIsRemote repoloc then cachedir else repoloc)
          pkgd.pkgver arch).length
      · rw [if_pos hlen, Except.error.injEq] at h
        rw [← h]
        decide
      · rw [if_neg hlen] at h
        cases h

theorem verifyBinpkg_ok {w : World σ} {pkgd : PkgDict} {r : World σ × Nat × Option Check}
    (h : verifyBinpkg out cachedir pool w pkgd = some r) :
    EntryOk (Check.Fits out cachedir pool pkgd w) (SilentVerify cachedir pool w pkgd) r := by
  rw [verifyBinpkg] at h
  cases hpath : pkgPath cachedir pkgd with
  | error e =>
    simp only [hpath, Option.some.injEq] at h
    rw [← h]
    exact EntryOk.of_code fun he => absurd he (pkgPath_error hpath)
  | ok path =>
    simp only [hpath] at h
    cases hrepo : pkgd.repository.bind (openRepo pool) with
    | none =>
      simp only [hrepo, Option.some.injEq] at h
      rw [← h]
      exact EntryOk.of_code fun he => ⟨⟨path, hpath⟩, hrepo, he⟩
    | some repo =>
      -- a repository that opens does not return in silence
      have hloud : ¬ SilentVerify cachedir pool w pkgd := fun hs => by
        rw [SilentVerify, hrepo] at hs
        cases hs.2.1
      simp only [hrepo] at h
      split at h
      · next hremote =>
        -- a remote repository: the signature decides
        cases hsig : verifyFileSignature out repo path (out.setCbState w) with
        | mk w' passed =>
          cases passed with
          | some digest =>
            simp only [hsig, Option.some.injEq] at h
            rw [← h]
            exact EntryOk.of_check hloud
              ⟨hrepo, hremote, Or.inl ⟨path, hpath, verifyFileSignature_some hsig⟩⟩
          | none =>
            simp only [hsig, Option.some.injEq] at h
            rw [← h]
            exact EntryOk.of_code fun he => by cases he
      · next hremote =>
        -- a local one: the digest of the file decides
        cases hsha : pkgd.filenameSha256 with
        | none => simp [hsha] at h
        | some sha256 =>
          simp only [hsha] at h
          cases hraw : out.fileSha256Raw path (out.setCbState w) with
          | mk w' digest =>
            cases digest with
            | none =>
              simp only [hraw, Option.some.injEq] at h
              rw [← h]
              have herr := out.fileSha256Raw_errno path (out.setCbState w) (by rw [hraw])
              rw [hraw] at herr
              exact EntryOk.of_code fun he => absurd he herr
            | some digest =>
              simp only [hraw] at h
              split at h
              · next hcmp =>
                rw [Option.some.injEq] at h
                rw [← h]
                exact EntryOk.of_check hloud ⟨hrepo, by simpa using hremote,
                  ⟨path, hpath, congrArg Prod.snd hraw⟩, sha256, hsha, hcmp⟩
              · rw [Option.some.injEq] at h
                rw [← h]
                exact EntryOk.of_code fun he => by cases he

/-- The signature of a download that was verified. -/
theorem downloadVerify_ok {pkgd : PkgDict} {repo : Repo} {repoloc arch : Str} {w w₁ : World σ}
    {fetched : Digest} {silent : Prop} (hrepo : pkgd.repository.bind (openRepo pool) = some repo)
    (hremote : repo.isRemote = true) (hloud : ¬ silent) (hloc : pkgd.repository = some repoloc)
    (harch : pkgd.architecture = some arch)
    (hfetch : downloadFetch out repoloc pkgd.pkgver arch w = (w₁, .ok fetched)) :
    EntryOk (Check.Fits out cachedir pool pkgd w) silent
      (downloadVerify out repo (sigFile cachedir pkgd.pkgver arch) fetched w₁) := by
  rw [downloadVerify]
  by_cases hunch : w₁.fetchLastErrCode = fetchUnchanged
  · simp only [if_pos hunch]
    cases hsig : verifyFileSignature out repo (stripSig (sigFile cachedir pkgd.pkgver arch)) w₁ with
    | mk w' passed =>
      cases passed with
      | some d =>
        refine EntryOk.of_check hloud ⟨hrepo, hremote, Or.inr ⟨_, _, _, _, hloc, harch, hfetch, ?_⟩⟩
        rw [if_pos hunch]
        exact verifyFileSignature_some hsig
      | none => exact EntryOk.of_code fun he => by cases he
  · simp only [if_neg hunch]
    cases hsig : out.verifySignature repo (sigFile cachedir pkgd.pkgver arch) fetched w₁ with
    | mk w' valid =>
      cases valid with
      | true =>
        refine EntryOk.of_check hloud ⟨hrepo, hremote, Or.inr ⟨_, _, _, _, hloc, harch, hfetch, ?_⟩⟩
        rw [if_neg hunch]
        exact ⟨rfl, congrArg Prod.snd hsig⟩
      | false => exact EntryOk.of_code fun he => by cases he

theorem downloadBinpkg_ok {w : World σ} {pkgd : PkgDict} {r : World σ × Nat × Option Check}
    (h : downloadBinpkg out cachedir pool w pkgd = some r) :
    EntryOk (Check.Fits out cachedir pool pkgd w) (SilentDownload out pool w pkgd) r := by
  rw [downloadBinpkg] at h
  cases hloc : pkgd.repository with
  | none => simp [hloc] at h
  | some repoloc =>
    simp only [hloc] at h
    split at h
    · rw [Option.some.injEq] at h
      rw [← h]
      exact EntryOk.of_code fun he => by cases he
    · next hremote =>
      rw [Bool.not_eq_false] at hremote
      cases harch : pkgd.architecture with
      | none => simp [harch] at h
      | some arch =>
        simp only [harch] at h
        cases hfetch : downloadFetch out repoloc pkgd.pkgver arch w with
        | mk w' fetched =>
          cases fetched with
          | error e =>
            simp only [hfetch, Option.some.injEq] at h
            rw [← h]
            -- the transfer fails, and its code is returned
            refine EntryOk.of_code fun he => ⟨repoloc, arch, hloc, hremote, harch, Or.inl ?_⟩
            rw [hfetch, he]
          | ok digest =>
            simp only [hfetch] at h
            cases hopen : openRepo pool repoloc with
            | none =>
              simp only [hopen, Option.some.injEq] at h
              rw [← h]
              -- the file came, but its repository does not open
              refine EntryOk.of_code fun he => ⟨repoloc, arch, hloc, hremote, harch, Or.inr ?_⟩
              rw [hfetch]
              exact ⟨⟨digest, rfl⟩, hopen, he⟩
            | some repo =>
              simp only [hopen, Option.some.injEq] at h
              rw [← h]
              have hrepo : pkgd.repository.bind (openRepo pool) = some repo := by
                rw [hloc, Option.bind_some, hopen]
              refine downloadVerify_ok hrepo ?_ ?_ hloc harch hfetch
              · rw [Repo.isRemote, openRepo_uri hopen]
                exact hremote
              · rintro ⟨repoloc', arch', hloc', -, harch', hs⟩
                obtain rfl := Option.some.inj (hloc.symm.trans hloc')
                obtain rfl := Option.some.inj (harch.symm.trans harch')
                rw [hfetch, hopen] at hs
                rcases hs with hs | ⟨-, hs, -⟩
                · cases hs
                · cases hs

end

/-! ### Runs -/

/-- No entry of the loop is passed over. -/
def LoudRun {σ : Type} (step : World σ → PkgDict → Option (World σ × Nat × Option Check))
    (silent : World σ → PkgDict → Prop) : List PkgDict → World σ → Prop
  | [], _ => True
  | obj :: pkgs, w => ¬ silent w obj ∧
      ∀ w' check, step w obj = some (w', 0, check) → LoudRun step silent pkgs w'

/-- A loop that ends with 0 has checked all entries iff it passed none of them over. -/
theorem checkLoop_spec {σ : Type} {step : World σ → PkgDict → Option (World σ × Nat × Option Check)}
    {fits : PkgDict → World σ → Check → Prop} {silent : World σ → PkgDict → Prop}
    (hstep : ∀ w obj r, step w obj = some r → EntryOk (fits obj w) (silent w obj) r) :
    ∀ (pkgs : List PkgDict) {c c' : Checked σ}, checkLoop step pkgs c = some c' → c'.rv = 0 →
      ∃ more, c'.checks = c.checks ++ more ∧ (∀ x ∈ more, fits x.1 x.2.1 x.2.2) ∧
        (more.map Prod.fst).Sublist pkgs ∧
        (more.map Prod.fst = pkgs ↔ LoudRun step silent pkgs c.world) := by
  intro pkgs
  induction pkgs with
  | nil =>
    intro c c' h _
    rw [checkLoop, Option.some.injEq] at h
    subst h
    exact ⟨[], by simp, by simp, List.Sublist.refl [], by simp [LoudRun]⟩
  | cons obj pkgs ih =>
    intro c c' h hrv
    rw [checkLoop] at h
    cases hr : step c.world obj with
    | none => simp [hr] at h
    | some r =>
      obtain ⟨w', rv, check⟩ := r
      have hok := hstep c.world obj _ hr
      simp only [hr] at h
      by_cases hrv' : rv ≠ 0
      · rw [if_pos hrv', Option.some.injEq] at h
        rw [← h] at hrv
        exact absurd hrv hrv'
      · rw [if_neg hrv'] at h
        rw [not_not] at hrv'
        subst hrv'
        obtain ⟨more, hmore, hfits, hsub, hiff⟩ := ih h hrv
        have hloud : LoudRun step silent (obj :: pkgs) c.world ↔
            ¬ silent c.world obj ∧ LoudRun step silent pkgs w' := by
          rw [LoudRun]
          refine and_congr_right fun _ => ⟨fun hl => hl w' check hr, fun hl w'' check' hr' => ?_⟩
          simp only [hr, Option.some.injEq, Prod.mk.injEq] at hr'
          exact hr'.1 ▸ hl
        cases check with
        | none =>
          -- passed over: one check is missing
          refine ⟨more, by simpa using hmore, hfits, hsub.trans (List.sublist_cons_self obj pkgs), ?_⟩
          refine iff_of_false (fun heq => ?_) fun hl => ?_
          · have hlen := hsub.length_le
            rw [heq, List.length_cons] at hlen
            omega
          · exact (hloud.mp hl).1 ((hok.silent rfl).mp rfl)
        | some check =>
          refine ⟨(obj, c.world, check) :: more, by simpa using hmore, ?_, ?_, ?_⟩
          · rw [List.forall_mem_cons]
            exact ⟨(hok.fits check rfl).2, hfits⟩
          · exact hsub.cons_cons obj
          · rw [hloud, List.map_cons, List.cons.injEq, hiff]
            refine and_congr_left fun _ => iff_of_true rfl fun hs => ?_
            cases (hok.silent rfl).mpr hs

/-- The first loop takes every entry with a binary package. -/
theorem fetchSplit_perm {σ : Type} (out : Outside σ) (cachedir : Str) :
    ∀ (pkgs : List PkgDict) {w w' : World σ} {fetch verify : List PkgDict},
      fetchSplit out cachedir pkgs w = some (w', fetch, verify) →
      (fetch ++ verify).Perm (pkgs.filter fun e => e.transaction.hasBinpkg) := by
  intro pkgs
  induction pkgs with
  | nil =>
    intro w w' fetch verify h
    simp only [fetchSplit, Option.some.injEq, Prod.mk.injEq] at h
    obtain ⟨-, rfl, rfl⟩ := h
    exact List.Perm.refl []
  | cons obj pkgs ih =>
    intro w w' fetch verify h
    rw [fetchSplit] at h
    by_cases ht : obj.transaction.hasBinpkg = false
    · rw [if_pos ht] at h
      rw [List.filter_cons_of_neg (by simp [ht])]
      exact ih h
    · rw [if_neg ht] at h
      rw [Bool.not_eq_false] at ht
      rw [List.filter_cons_of_pos (by exact ht)]
      cases hr : obj.repository with
      | none => simp [hr] at h
      | some repoloc =>
        simp only [hr] at h
        generalize (if repositoryIsRemote repoloc = true then
          ((remoteBinpkgExists out cachedir obj w).1, !(remoteBinpkgExists out cachedir obj w).2)
          else (w, false)) = r at h
        obtain ⟨⟨w₁, fetch₁, verify₁⟩, h₁, heq⟩ := Option.map_eq_some_iff.mp h
        have hperm := ih h₁
        cases hload : r.2 with
        | true =>
          simp only [hload, if_true, Prod.mk.injEq] at heq
          obtain ⟨-, rfl, rfl⟩ := heq
          exact hperm.cons obj
        | false =>
          simp only [hload, Bool.false_eq_true, if_false, Prod.mk.injEq] at heq
          obtain ⟨-, rfl, rfl⟩ := heq
          exact (List.perm_middle).trans (hperm.cons obj)

section

variable {σ : Type} (out : Outside σ) (cachedir : Str) (pool : Rpool)

/-- No entry of the transaction is passed over. -/
def FetchLoud (pkgs : List PkgDict) (w : World σ) : Prop :=
  ∀ world fetch verify, fetchSplit out cachedir pkgs w = some (world, fetch, verify) →
    LoudRun (downloadBinpkg out cachedir pool) (SilentDownload out pool) fetch world ∧
      ∀ c, checkLoop (downloadBinpkg out cachedir pool) fetch { world } = some c → c.rv = 0 →
        LoudRun (verifyBinpkg out cachedir pool) (SilentVerify cachedir pool) verify c.world

/-- Every entry with a binary package has passed the check for its repository. -/
def FetchVerified (pkgs : List PkgDict) (c : Checked σ) : Prop :=
  (c.checks.map Prod.fst).Perm (pkgs.filter fun e => e.transaction.hasBinpkg) ∧
    ∀ x ∈ c.checks, x.2.2.Fits out cachedir pool x.1 x.2.1

/-- When the function returns 0, every binary package was verified iff no entry was passed over
on the way. -/
theorem transactionFetch_verified_iff (pkgs : List PkgDict) (w : World σ) (c : Checked σ)
    (h : transactionFetch out cachedir pool pkgs w = some c) (hrv : c.rv = 0) :
    FetchVerified out cachedir pool pkgs c ↔ FetchLoud out cachedir pool pkgs w := by
  rw [transactionFetch] at h
  cases hsplit : fetchSplit out cachedir pkgs w with
  | none => simp [hsplit] at h
  | some r =>
    obtain ⟨world, fetch, verify⟩ := r
    simp only [hsplit] at h
    cases hload : checkLoop (downloadBinpkg out cachedir pool) fetch { world } with
    | none => simp [hload] at h
    | some c₁ =>
      simp only [hload] at h
      by_cases hrv₁ : c₁.rv ≠ 0
      · rw [if_pos hrv₁, Option.some.injEq] at h
        exact absurd (h ▸ hrv) hrv₁
      · rw [if_neg hrv₁] at h
        rw [not_not] at hrv₁
        obtain ⟨more₁, hmore₁, hfits₁, hsub₁, hiff₁⟩ :=
          checkLoop_spec (fun _ _ _ => downloadBinpkg_ok) fetch hload hrv₁
        obtain ⟨more₂, hmore₂, hfits₂, hsub₂, hiff₂⟩ :=
          checkLoop_spec (fun _ _ _ => verifyBinpkg_ok) verify h hrv
        have hchecks : c.checks = more₁ ++ more₂ := by rw [hmore₂, hmore₁, List.nil_append]
        have hperm := fetchSplit_perm out cachedir pkgs hsplit
        have hloud : FetchLoud out cachedir pool pkgs w ↔
            more₁.map Prod.fst = fetch ∧ more₂.map Prod.fst = verify := by
          rw [hiff₁, hiff₂]
          constructor
          · intro hl
            obtain ⟨hl₁, hl₂⟩ := hl world fetch verify hsplit
            exact ⟨hl₁, hl₂ c₁ hload hrv₁⟩
          · rintro ⟨hl₁, hl₂⟩ world' fetch' verify' hsplit'
            simp only [hsplit, Option.some.injEq, Prod.mk.injEq] at hsplit'
            obtain ⟨rfl, rfl, rfl⟩ := hsplit'
            refine ⟨hl₁, fun c' hc' _ => ?_⟩
            obtain rfl := Option.some.inj (hload.symm.trans hc')
            exact hl₂
        rw [hloud, FetchVerified, hchecks, List.map_append]
        constructor
        · rintro ⟨hall, -⟩
          -- the two lists are sublists of what was to be checked, and long enough
          have hlen := (hall.trans hperm.symm).length_eq
          rw [List.length_append, List.length_append] at hlen
          have hlen₁ := hsub₁.length_le
          have hlen₂ := hsub₂.length_le
          exact ⟨hsub₁.eq_of_length (by omega), hsub₂.eq_of_length (by omega)⟩
        · rintro ⟨h₁, h₂⟩
          refine ⟨by rw [h₁, h₂]; exact hperm, fun x hx => ?_⟩
          rcases List.mem_append.mp hx with hx | hx
          · exact hfits₁ x hx
          · exact hfits₂ x hx

end

/-- Every file can be read and has a hash of zeros, every signature is valid, no file is in the
cache, and every download succeeds and leaves no code behind. -/
def fetchOutside : Outside Unit where
  access _ w := ({ w with errno := 2 }, false)
  fetchFileSha256 _ w := ({ w with errno := 0, fetchLastErrCode := 0 }, some (List.replicate 32 0))
  fileSha256Raw _ w := (w, some (List.replicate 32 0))
  verifySignature _ _ _ w := (w, true)
  remove _ w := w
  setCbState w := w
  fileSha256Raw_errno _ _ h := by cases h

/-- A process that has not seen an error yet. -/
def fetchWorld : World Unit := ⟨0, 0, ()⟩

/-- A package to be installed from a repository, with a hash of zeros. -/
def fetchPkg (repository : String) : PkgDict :=
  { pkgver := "a-1_1".toList, repository := some repository.toList, transaction := .install
    architecture := some "noarch".toList, filenameSha256 := some (List.replicate 64 '0') }

/-- A pool with a local and a remote repository. -/
def fetchPool : Rpool :=
  { queue := [⟨"/repo".toList, Dict.empty⟩, ⟨"https://repo".toList, Dict.empty⟩] }

theorem transactionFetch_verified_iff_fetchPool :
    ∃ c, transactionFetch fetchOutside "/cache".toList fetchPool
        [fetchPkg "/repo", fetchPkg "https://repo"] fetchWorld = some c ∧ c.rv = 0 ∧
      c.checks.length = 2 ∧
      FetchVerified fetchOutside "/cache".toList fetchPool
        [fetchPkg "/repo", fetchPkg "https://repo"] c := by
  refine ⟨_, rfl, rfl, rfl, ?_⟩
  refine (transactionFetch_verified_iff fetchOutside "/cache".toList fetchPool _ fetchWorld _
    rfl rfl).mpr ?_
  intro world fetch verify hsplit
  obtain ⟨rfl, rfl, rfl⟩ := hsplit
  refine ⟨⟨?_, fun w' check _ => trivial⟩, fun c hc _ => ⟨?_, fun w' check _ => trivial⟩⟩
  · rintro ⟨repoloc, arch, hloc, -, -, hs⟩
    obtain rfl := Option.some.inj hloc
    rcases hs with hs | ⟨-, hs, -⟩
    · cases hs
    · cases hs
  · rintro ⟨-, hs, -⟩
    cases hs

/-- Packages whose repositories are not open, with `errno` 0: neither the local one nor the one
that is downloaded is verified, and the function returns 0. -/
theorem transactionFetch_silent :
    ∃ c, transactionFetch fetchOutside "/cache".toList {}
        [fetchPkg "/repo", fetchPkg "https://repo"] fetchWorld = some c ∧ c.rv = 0 ∧
      c.checks.length = 0 ∧
      ¬ FetchVerified fetchOutside "/cache".toList {} [fetchPkg "/repo", fetchPkg "https://repo"]
        c := by
  refine ⟨_, rfl, rfl, rfl, ?_⟩
  rintro ⟨hperm, -⟩
  have hlen := hperm.length_eq
  revert hlen
  decide

end Flappy
