import Tuyau.Codec
import Tuyau.Config
import Tuyau.FaultyFiles
import Tuyau.Http
import Tuyau.PemText
import Tuyau.Utf8Lossy

/-! # The certificate of the tunnel endpoint

Tunnel clients know the server by the fingerprint of its certificate, so `load_or_generate` keeps it: the
first start writes a certificate and its key to two files, and a start that finds both files loads them.
Each file is replaced in place, and the two files being there is all that tells a start that an earlier
one was finished.

A `Call` is one `load_or_generate` with the faults of the operations that write, and `Call.reach` says how far
it gets with the files.  `leaves_files` describes the files that a call leaves and `recovers_files_iff` what
they mean for the next one.  The main result is `cert_kept_iff`: after a sequence of calls the next one succeeds
with a matching pair, and the material of a call that succeeded is what all later ones return, exactly if
no call is cut short between the creation of the second file and its end mark.

In a `Start` the operations that only look at the files may fail as well.  `exists` is false of a file that
cannot be looked at, and such a start writes over a certificate that is there; a start that sees the files
leaves them (`Start.run_of_sees`). -/

namespace Tuyau

namespace Cert

open AsciiText Http FaultyFiles

/-! ### The two files -/

/-- `CertError`, without the error of a CA bundle. -/
inductive CertError where
  | io (message : Text)
  | rcgen (message : Text)
  | pemNoCert (path : Text)
  | pemNoKey (path : Text)
deriving DecidableEq

structure CertMaterial where
  certDer : Bytes
  keyDer : Bytes
  fingerprint : Vector UInt8 32
deriving DecidableEq

/-- PEM files with one item of a kind: the reader looks for the first item, and of the text that is written for
it needs all up to the end mark.  Only the end of a line stands behind that. -/
structure Pem where
  encode : Bytes → Bytes
  first : Bytes → Option (Except Text Bytes)
  needed : Bytes → ℕ
  needed_le : ∀ der, needed der ≤ (encode der).length
  first_take : ∀ {der done}, needed der ≤ done → first ((encode der).take done) = some (.ok der)
  first_cut : ∀ {der done} der', done < needed der → first ((encode der).take done) ≠ some (.ok der')

theorem Pem.first_encode (pem : Pem) (der : Bytes) : pem.first (pem.encode der) = some (.ok der) := by
  have h := pem.first_take (pem.needed_le der)
  rwa [List.take_length] at h

/-- The libraries for certificates. -/
structure CertTools where
  certPem : Pem
  keyPem : Pem
  sha256 : Bytes → Vector UInt8 32
  keyMatches : (keyDer certDer : Bytes) → Bool

/-- A new key pair with its self-signed certificate. -/
structure KeyMaterial (tools : CertTools) where
  certDer : Bytes
  keyDer : Bytes
  keyMatches : tools.keyMatches keyDer certDer = true

/-- `Path::join`, for a name that is no absolute path. -/
def joinPath (dir : PathBuf) (name : Text) : PathBuf :=
  if dir = [] ∨ dir.getLast? = some 0x2f then dir ++ utf8 name else dir ++ 0x2f :: utf8 name

/-- `Path::display`. -/
def displayPath (path : PathBuf) : Text := Utf8Lossy.lossy path

/-- The path of `CERT_FILE`. -/
def certPath (dir : PathBuf) : PathBuf := joinPath dir "tunnel-cert.pem".toList

/-- The path of `KEY_FILE`. -/
def keyPath (dir : PathBuf) : PathBuf := joinPath dir "tunnel-key.pem".toList

/-- The files of the server. -/
abbrev CertFs := Files PathBuf UInt8

/-- The faults of the operations that only look at a file: asking whether it is there, and reading it. -/
structure LookFaults where
  stat : PathBuf → Option Text
  read : PathBuf → Option Text

/-- No such operation fails. -/
def LookFaults.never : LookFaults := ⟨fun _ => none, fun _ => none⟩

/-- `Path::exists`, which is false where the answer is an error. -/
def pathExists (looks : LookFaults) (fs : CertFs) (path : PathBuf) : Bool :=
  match looks.stat path with
  | some _ => false
  | none => (fs path).isSome

/-- Read the first item of a PEM file. -/
def readFirst (pem : Pem) (noItem : Text → CertError) (looks : LookFaults) (fs : CertFs) (path : PathBuf) :
    Except CertError Bytes :=
  match looks.read path, fs path with
  | some e, _ => .error (.io e)
  | none, none => .error (.io "No such file or directory (os error 2)".toList)
  | none, some bytes =>
      match pem.first bytes with
      | none => .error (noItem (displayPath path))
      | some (.error e) => .error (.io e)
      | some (.ok der) => .ok der

section

variable (tools : CertTools)

def readFirstCert (looks : LookFaults) (fs : CertFs) (path : PathBuf) : Except CertError Bytes :=
  readFirst tools.certPem .pemNoCert looks fs path

def readFirstPkcs8Key (looks : LookFaults) (fs : CertFs) (path : PathBuf) : Except CertError Bytes :=
  readFirst tools.keyPem .pemNoKey looks fs path

def load (looks : LookFaults) (fs : CertFs) (certPath keyPath : PathBuf) : Except CertError CertMaterial := do
  let certDer ← readFirstCert tools looks fs certPath
  let keyDer ← readFirstPkcs8Key tools looks fs keyPath
  pure { certDer, keyDer, fingerprint := tools.sha256 certDer }

/-- A program over the files of the server. -/
abbrev CertProg := Prog PathBuf UInt8 Text CertError

/-- Only the owner may read a file that this creates. -/
def writeKeySecure (path : PathBuf) (contents : Bytes) : Prog PathBuf UInt8 Text Text Unit :=
  Prog.writeFile path contents

/-- `generated` is what `rcgen` gives. -/
def generate (certPath keyPath : PathBuf) (generated : Except Text (KeyMaterial tools)) :
    CertProg CertMaterial := do
  Prog.createDirAll.mapError .io
  let pair ← Prog.ofExcept (generated.mapError .rcgen)
  (Prog.writeFile certPath (tools.certPem.encode pair.certDer)).mapError .io
  (writeKeySecure keyPath (tools.keyPem.encode pair.keyDer)).mapError .io
  pure { certDer := pair.certDer, keyDer := pair.keyDer, fingerprint := tools.sha256 pair.certDer }

def loadOrGenerate (looks : LookFaults) (dir : PathBuf) (generated : Except Text (KeyMaterial tools)) :
    CertProg CertMaterial := do
  let fs ← Prog.files
  if pathExists looks fs (certPath dir) && pathExists looks fs (keyPath dir) then
    Prog.ofExcept (load tools looks fs (certPath dir) (keyPath dir))
  else generate tools (certPath dir) (keyPath dir) generated

/-- A call of `load_or_generate`: what `rcgen` gives should it be asked, and the faults of the operations of
`generate`. -/
structure Call where
  generated : Except Text (KeyMaterial tools)
  faults : Schedule Text

/-- A call in which looking at the files may fail too. -/
structure Start extends Call tools where
  looks : LookFaults

end

/-- Both files are there, so that a call loads them. -/
def Present (dir : PathBuf) (fs : CertFs) : Prop := fs (certPath dir) ≠ none ∧ fs (keyPath dir) ≠ none

/-- How far a call gets with the files when it generates: a file is torn while it does not have its end
mark. -/
inductive Reach where
  | nothing
  | certTorn
  | certWhole
  | keyTorn
  | keyWhole
deriving DecidableEq, Repr

/-- The reach of replacing a file of which the reader needs so many bytes, by the number of those that are
written. -/
def Reach.of (untouched torn whole : Reach) (needed : ℕ) : Option ℕ → Reach
  | none => untouched
  | some done => if done < needed then torn else whole

variable {tools : CertTools}

namespace Start

/-- What a start returns, unless the process stops, and the files after it. -/
def run (dir : PathBuf) (start : Start tools) (fs : CertFs) :
    Except (Stop CertError) CertMaterial × CertFs :=
  let (result, s) := (loadOrGenerate tools start.looks dir start.generated).run start.faults ⟨0, fs⟩
  (result, s.files)

def result (dir : PathBuf) (start : Start tools) (fs : CertFs) : Except (Stop CertError) CertMaterial :=
  (start.run dir fs).1

def files (dir : PathBuf) (start : Start tools) (fs : CertFs) : CertFs := (start.run dir fs).2

/-- Asking whether the two files are there does not fail. -/
def Sees (dir : PathBuf) (start : Start tools) : Prop :=
  start.looks.stat (certPath dir) = none ∧ start.looks.stat (keyPath dir) = none

end Start

namespace Call

def reach (call : Call tools) : Reach :=
  -- operation 0 creates the directory, 1 and 2 replace the certificate, 3 and 4 the key
  match call.generated, call.faults 0 with
  | .ok pair, none =>
      let certLen := (tools.certPem.encode pair.certDer).length
      let keyLen := (tools.keyPem.encode pair.keyDer).length
      if Clear call.faults 1 then
        .of .certWhole .keyTorn .keyWhole (tools.keyPem.needed pair.keyDer) (extent call.faults 3 keyLen)
      else .of .nothing .certTorn .certWhole (tools.certPem.needed pair.certDer) (extent call.faults 1 certLen)
  | _, _ => .nothing

/-- The part of a call that generates. -/
def generating (dir : PathBuf) (call : Call tools) (fs : CertFs) :
    Except (Stop CertError) CertMaterial × State PathBuf UInt8 :=
  (generate tools (certPath dir) (keyPath dir) call.generated).run call.faults ⟨0, fs⟩

/-- The start in which nothing else fails. -/
def start (call : Call tools) : Start tools := ⟨call, .never⟩

def result (dir : PathBuf) (call : Call tools) (fs : CertFs) : Except (Stop CertError) CertMaterial :=
  call.start.result dir fs

def files (dir : PathBuf) (call : Call tools) (fs : CertFs) : CertFs := call.start.files dir fs

/-- A call whose file operations all succeed. -/
def clear (pair : KeyMaterial tools) : Call tools := ⟨.ok pair, fun _ => none⟩

/-- The key file holds a key for the certificate that the call generates. -/
def FindsKey (dir : PathBuf) (call : Call tools) (fs : CertFs) : Prop :=
  ∃ pair bytes keyDer, call.generated = .ok pair ∧ fs (keyPath dir) = some bytes ∧
    tools.keyPem.first bytes = some (.ok keyDer) ∧ tools.keyMatches keyDer pair.certDer = true

/-- A call loads the files, or it stops while one of them is missing, or it writes both to the end mark.  A
key that is already there must be that of the new certificate. -/
def Safe (dir : PathBuf) (call : Call tools) (fs : CertFs) : Prop :=
  Present dir fs ∨
    match call.reach with
    | .nothing => True
    | .certTorn => fs (keyPath dir) = none
    | .certWhole => fs (keyPath dir) = none ∨ call.FindsKey dir fs
    | .keyTorn => False
    | .keyWhole => True

end Call

/-- The files after some calls. -/
def filesAfter (dir : PathBuf) (calls : List (Call tools)) (fs : CertFs) : CertFs :=
  calls.foldl (fun fs call => call.files dir fs) fs

/-- Every call is safe with the files that it finds. -/
def SafeAlong (dir : PathBuf) : List (Call tools) → CertFs → Prop
  | [], _ => True
  | call :: calls, fs => call.Safe dir fs ∧ SafeAlong dir calls (call.files dir fs)

/-- A call whose file operations all succeed returns a key with its certificate. -/
def Recovers (tools : CertTools) (dir : PathBuf) (fs : CertFs) : Prop :=
  ∀ pair : KeyMaterial tools, ∃ material, (Call.clear pair).result dir fs = .ok material ∧
    tools.keyMatches material.keyDer material.certDer = true

/-- The certificate is kept over some calls: the next one recovers, and what one of them returned is what
every call returns from then on. -/
structure CertKept (dir : PathBuf) (calls : List (Call tools)) (fs : CertFs) : Prop where
  recovers : Recovers tools dir (filesAfter dir calls fs)
  stable : ∀ before call after material, calls = before ++ call :: after →
    call.result dir (filesAfter dir before fs) = .ok material →
      ∀ next : Call tools, next.result dir (filesAfter dir calls fs) = .ok material

/-! ### Paths and PEM files -/

theorem certPath_ne_keyPath (dir : PathBuf) : certPath dir ≠ keyPath dir := by
  unfold certPath keyPath joinPath
  intro h
  split_ifs at h
  · exact absurd (List.append_cancel_left h) (by decide)
  · exact absurd (List.append_cancel_left h) (by decide)

section

variable {looks : LookFaults} {fs : CertFs}

theorem readFirst_eq_ok_iff {pem : Pem} {noItem : Text → CertError} {path : PathBuf} {der : Bytes} :
    readFirst pem noItem looks fs path = .ok der ↔
      looks.read path = none ∧ ∃ bytes, fs path = some bytes ∧ pem.first bytes = some (.ok der) := by
  unfold readFirst
  cases looks.read path with
  | some e => simp
  | none =>
      cases fs path with
      | none => simp
      | some bytes =>
          rcases hfirst : pem.first bytes with _ | _ | der'
          · simp [hfirst]
          · simp [hfirst]
          · simp [hfirst]

/-- A file that could be read is read, or the fault is the error. -/
theorem readFirst_or_io {pem : Pem} {noItem : Text → CertError} {path : PathBuf} {der : Bytes}
    (h : readFirst pem noItem .never fs path = .ok der) :
    readFirst pem noItem looks fs path = .ok der ∨
      ∃ e, looks.read path = some e ∧ readFirst pem noItem looks fs path = .error (.io e) := by
  cases hread : looks.read path with
  | none => exact .inl (readFirst_eq_ok_iff.mpr ⟨hread, (readFirst_eq_ok_iff.mp h).2⟩)
  | some e =>
      refine .inr ⟨e, rfl, ?_⟩
      unfold readFirst
      rw [hread]

theorem present_of_reads {dir : PathBuf} {certDer keyDer : Bytes}
    (hcert : readFirstCert tools looks fs (certPath dir) = .ok certDer)
    (hkey : readFirstPkcs8Key tools looks fs (keyPath dir) = .ok keyDer) : Present dir fs := by
  obtain ⟨-, certBytes, hcert, -⟩ := readFirst_eq_ok_iff.mp hcert
  obtain ⟨-, keyBytes, hkey, -⟩ := readFirst_eq_ok_iff.mp hkey
  exact ⟨by rw [hcert]; simp, by rw [hkey]; simp⟩

variable {certPath keyPath : PathBuf} {material : CertMaterial}

theorem load_eq_ok_iff :
    load tools looks fs certPath keyPath = .ok material ↔
      readFirstCert tools looks fs certPath = .ok material.certDer ∧
        readFirstPkcs8Key tools looks fs keyPath = .ok material.keyDer ∧
          material.fingerprint = tools.sha256 material.certDer := by
  unfold load
  constructor
  · intro h
    obtain ⟨certDer, hcert, h⟩ := bind_eq_ok.mp h
    obtain ⟨keyDer, hkey, h⟩ := bind_eq_ok.mp h
    cases h
    exact ⟨hcert, hkey, rfl⟩
  · rintro ⟨hcert, hkey, hfingerprint⟩
    refine bind_eq_ok.mpr ⟨_, hcert, bind_eq_ok.mpr ⟨_, hkey, ?_⟩⟩
    rw [← hfingerprint]
    rfl

/-- What is loaded in spite of faults is loaded without them. -/
theorem load_never (h : load tools looks fs certPath keyPath = .ok material) :
    load tools .never fs certPath keyPath = .ok material := by
  obtain ⟨hcert, hkey, hfingerprint⟩ := load_eq_ok_iff.mp h
  exact load_eq_ok_iff.mpr ⟨readFirst_eq_ok_iff.mpr ⟨rfl, (readFirst_eq_ok_iff.mp hcert).2⟩,
    readFirst_eq_ok_iff.mpr ⟨rfl, (readFirst_eq_ok_iff.mp hkey).2⟩, hfingerprint⟩

/-- With faults the same is loaded, or nothing. -/
theorem load_or_io (looks : LookFaults) (h : load tools .never fs certPath keyPath = .ok material) :
    load tools looks fs certPath keyPath = .ok material ∨
      ∃ path ∈ [certPath, keyPath], ∃ e, looks.read path = some e ∧
        load tools looks fs certPath keyPath = .error (.io e) := by
  obtain ⟨hcert, hkey, hfingerprint⟩ := load_eq_ok_iff.mp h
  rcases @readFirst_or_io looks fs _ _ _ _ hcert with hcert | ⟨e, hread, hcert⟩
  · rcases @readFirst_or_io looks fs _ _ _ _ hkey with hkey | ⟨e, hread, hkey⟩
    · exact .inl (load_eq_ok_iff.mpr ⟨hcert, hkey, hfingerprint⟩)
    · refine .inr ⟨keyPath, List.mem_cons_of_mem _ List.mem_cons_self, e, hread, ?_⟩
      rw [load, readFirstCert, hcert, readFirstPkcs8Key, hkey]
      rfl
  · refine .inr ⟨certPath, List.mem_cons_self, e, hread, ?_⟩
    rw [load, readFirstCert, hcert]
    rfl

end

/-! ### What a call leaves -/

section

variable {dir : PathBuf} {start : Start tools} {fs : CertFs}

theorem Start.run_eq :
    start.run dir fs =
      if pathExists start.looks fs (certPath dir) && pathExists start.looks fs (keyPath dir) then
        ((load tools start.looks fs (certPath dir) (keyPath dir)).mapError .error, fs)
      else ((start.generating dir fs).1, (start.generating dir fs).2.files) := by
  have hfiles : (Prog.files : CertProg CertFs).run start.faults ⟨0, fs⟩ = (.ok fs, ⟨0, fs⟩) := rfl
  rw [Start.run, loadOrGenerate, run_bind_of_ok hfiles]
  split_ifs <;> rfl

theorem pathExists_and_iff (h : start.Sees dir) :
    (pathExists start.looks fs (certPath dir) && pathExists start.looks fs (keyPath dir)) = true ↔
      Present dir fs := by
  unfold pathExists
  rw [h.1, h.2, Bool.and_eq_true, Option.isSome_iff_ne_none, Option.isSome_iff_ne_none]
  rfl

/-- A start that sees both files loads them. -/
theorem Start.run_of_sees (hsees : start.Sees dir) (h : Present dir fs) :
    start.run dir fs = ((load tools start.looks fs (certPath dir) (keyPath dir)).mapError .error, fs) := by
  rw [Start.run_eq, if_pos ((pathExists_and_iff hsees).mpr h)]

/-- A start that cannot look at a file generates, as if it were not there. -/
theorem Start.run_of_not_sees (h : ¬ start.Sees dir) :
    start.run dir fs = ((start.generating dir fs).1, (start.generating dir fs).2.files) := by
  rw [Start.run_eq, if_neg]
  intro hexists
  rw [Bool.and_eq_true] at hexists
  have hstat : ∀ {path}, pathExists start.looks fs path = true → start.looks.stat path = none := by
    intro path hpath
    unfold pathExists at hpath
    cases hs : start.looks.stat path with
    | none => rfl
    | some e => rw [hs] at hpath; cases hpath
  exact h ⟨hstat hexists.1, hstat hexists.2⟩

theorem Call.sees (call : Call tools) : call.start.Sees dir := ⟨rfl, rfl⟩

theorem Start.run_of_missing (hsees : start.Sees dir) (h : ¬ Present dir fs) :
    start.run dir fs = ((start.generating dir fs).1, (start.generating dir fs).2.files) := by
  rw [Start.run_eq, if_neg fun hexists => h ((pathExists_and_iff hsees).mp hexists)]

variable {call : Call tools}

theorem files_of_missing (h : ¬ Present dir fs) : call.files dir fs = (call.generating dir fs).2.files := by
  rw [Call.files, Start.files, Start.run_of_missing call.sees h]
  rfl

theorem result_of_missing (h : ¬ Present dir fs) : call.result dir fs = (call.generating dir fs).1 := by
  rw [Call.result, Start.result, Start.run_of_missing call.sees h]
  rfl

end

/-- The files with a certificate, and with the key as well. -/
def withCert (dir : PathBuf) (fs : CertFs) (bytes : Bytes) : CertFs :=
  Function.update fs (certPath dir) (some bytes)

def withPair (dir : PathBuf) (fs : CertFs) (certBytes keyBytes : Bytes) : CertFs :=
  Function.update (withCert dir fs certBytes) (keyPath dir) (some keyBytes)

/-- The files that a call leaves when it generates, by its reach. -/
inductive Leaves (dir : PathBuf) (call : Call tools) (fs : CertFs) : Reach → CertFs → Prop
  | nothing : Leaves dir call fs .nothing fs
  | certTorn {pair : KeyMaterial tools} {bytes : Bytes} (hpair : call.generated = .ok pair)
      (hbytes : ∀ der, tools.certPem.first bytes ≠ some (.ok der)) :
      Leaves dir call fs .certTorn (withCert dir fs bytes)
  | certWhole {pair : KeyMaterial tools} {bytes : Bytes} (hpair : call.generated = .ok pair)
      (hbytes : tools.certPem.first bytes = some (.ok pair.certDer)) :
      Leaves dir call fs .certWhole (withCert dir fs bytes)
  | keyTorn {pair : KeyMaterial tools} {bytes : Bytes} (hpair : call.generated = .ok pair)
      (hbytes : ∀ der, tools.keyPem.first bytes ≠ some (.ok der)) :
      Leaves dir call fs .keyTorn (withPair dir fs (tools.certPem.encode pair.certDer) bytes)
  | keyWhole {pair : KeyMaterial tools} {bytes : Bytes} (hpair : call.generated = .ok pair)
      (hbytes : tools.keyPem.first bytes = some (.ok pair.keyDer)) :
      Leaves dir call fs .keyWhole (withPair dir fs (tools.certPem.encode pair.certDer) bytes)

section

variable {dir : PathBuf} {call : Call tools} {fs : CertFs} {pair : KeyMaterial tools}

/-- A file that is replaced, as far as it is written. -/
theorem leaves_written {untouched torn whole : Reach} {fs₁ : CertFs} {path : PathBuf} {pem : Pem} {der : Bytes}
    (huntouched : Leaves dir call fs untouched fs₁)
    (htorn : ∀ bytes, (∀ der', pem.first bytes ≠ some (.ok der')) →
      Leaves dir call fs torn (Function.update fs₁ path (some bytes)))
    (hwhole : ∀ bytes, pem.first bytes = some (.ok der) →
      Leaves dir call fs whole (Function.update fs₁ path (some bytes))) (done : Option ℕ) :
    Leaves dir call fs (.of untouched torn whole (pem.needed der) done)
      (written path (pem.encode der) fs₁ done) := by
  cases done with
  | none => exact huntouched
  | some done =>
      rw [Reach.of, written]
      split_ifs with hdone
      · exact htorn _ fun der' => pem.first_cut der' hdone
      · exact hwhole _ (pem.first_take (Nat.not_lt.mp hdone))

theorem reach_of_pair (hfault : call.faults 0 = none) (hpair : call.generated = .ok pair) :
    call.reach =
      if Clear call.faults 1 then
        .of .certWhole .keyTorn .keyWhole (tools.keyPem.needed pair.keyDer)
          (extent call.faults 3 (tools.keyPem.encode pair.keyDer).length)
      else
        .of .nothing .certTorn .certWhole (tools.certPem.needed pair.certDer)
          (extent call.faults 1 (tools.certPem.encode pair.certDer).length) := by
  unfold Call.reach
  rw [hpair, hfault]

theorem run_createDirAll (hfault : call.faults 0 = none) :
    (Prog.createDirAll.mapError CertError.io : CertProg Unit).run call.faults ⟨0, fs⟩ = (.ok (), ⟨1, fs⟩) := by
  refine run_mapError_of_ok ?_
  simp only [Prog.createDirAll, Prog.operate, hfault]

theorem run_rcgen : (Prog.ofExcept ((Except.ok pair).mapError .rcgen) : CertProg (KeyMaterial tools)).run
    call.faults ⟨1, fs⟩ = (.ok pair, ⟨1, fs⟩) := rfl

theorem run_writeCert (certDer : Bytes) (hcert : Clear call.faults 1) :
    ((Prog.writeFile (certPath dir) (tools.certPem.encode certDer)).mapError .io : CertProg Unit).run
      call.faults ⟨1, fs⟩ = (.ok (), ⟨3, withCert dir fs (tools.certPem.encode certDer)⟩) :=
  run_mapError_of_ok (writeFile_of_clear hcert)

variable (dir fs) in
/-- A generation without a fault gives the pair that it has written. -/
theorem run_generate_of_clear (hfault : call.faults 0 = none) (hpair : call.generated = .ok pair)
    (hcert : Clear call.faults 1) (hkey : Clear call.faults 3) :
    call.generating dir fs =
      (.ok ⟨pair.certDer, pair.keyDer, tools.sha256 pair.certDer⟩,
        ⟨5, withPair dir fs (tools.certPem.encode pair.certDer) (tools.keyPem.encode pair.keyDer)⟩) := by
  rw [Call.generating, generate, run_bind_of_ok (run_createDirAll hfault), hpair, run_bind_of_ok run_rcgen,
    run_bind_of_ok (run_writeCert pair.certDer hcert)]
  exact run_bind_of_ok (run_mapError_of_ok (writeFile_of_clear hkey))

variable (dir fs) in
/-- A generation with a fault at the files stops and leaves what the reach of the call says. -/
theorem run_generate_of_fault (hfault : call.faults 0 = none) (hpair : call.generated = .ok pair)
    (h : ¬ (Clear call.faults 1 ∧ Clear call.faults 3)) :
    ∃ stop n fs', call.generating dir fs = (.error stop, ⟨n, fs'⟩) ∧ Leaves dir call fs call.reach fs' := by
  rw [Call.generating, generate, run_bind_of_ok (run_createDirAll hfault), hpair, run_bind_of_ok run_rcgen,
    reach_of_pair hfault hpair]
  by_cases hcert : Clear call.faults 1
  · obtain ⟨stop, n, hwriteKey⟩ := @writeFile_of_fault _ _ _ call.faults
      ⟨3, withCert dir fs (tools.certPem.encode pair.certDer)⟩ _ (keyPath dir)
      (tools.keyPem.encode pair.keyDer) fun hkey => h ⟨hcert, hkey⟩
    rw [run_bind_of_ok (run_writeCert pair.certDer hcert), if_pos hcert]
    exact ⟨_, _, _, run_bind_of_error (run_mapError_of_error hwriteKey),
      leaves_written (.certWhole hpair (tools.certPem.first_encode _)) (fun _ => .keyTorn hpair)
        (fun _ => .keyWhole hpair) _⟩
  · obtain ⟨stop, n, hwriteCert⟩ := @writeFile_of_fault _ _ _ call.faults ⟨1, fs⟩ _ (certPath dir)
      (tools.certPem.encode pair.certDer) hcert
    rw [if_neg hcert]
    exact ⟨_, _, _, run_bind_of_error (run_mapError_of_error hwriteCert),
      leaves_written .nothing (fun _ => .certTorn hpair) (fun _ => .certWhole hpair) _⟩

theorem reach_of_clear (hfault : call.faults 0 = none) (hpair : call.generated = .ok pair)
    (hcert : Clear call.faults 1) (hkey : Clear call.faults 3) : call.reach = .keyWhole := by
  rw [reach_of_pair hfault hpair, if_pos hcert, extent_of_clear hkey]
  exact if_neg (Nat.not_lt.mpr (tools.keyPem.needed_le _))

variable (dir call fs) in
/-- The same for every generation; one that does not come to the files leaves them. -/
theorem run_generate :
    (∃ stop n fs', call.generating dir fs = (.error stop, ⟨n, fs'⟩) ∧ Leaves dir call fs call.reach fs') ∨
      ∃ pair, call.generated = .ok pair ∧ call.reach = .keyWhole ∧
        call.generating dir fs =
          (.ok ⟨pair.certDer, pair.keyDer, tools.sha256 pair.certDer⟩,
            ⟨5, withPair dir fs (tools.certPem.encode pair.certDer) (tools.keyPem.encode pair.keyDer)⟩) := by
  cases hfault : call.faults 0 with
  | some fault =>
      have hreach : call.reach = .nothing := by
        unfold Call.reach
        rw [hfault]
        cases call.generated <;> rfl
      have hdir : (Prog.createDirAll.mapError CertError.io : CertProg Unit).run call.faults ⟨0, fs⟩ =
          (.error (fault.stop.map .io), ⟨1, fs⟩) := by
        refine run_mapError_of_error ?_
        simp only [Prog.createDirAll, Prog.operate, hfault]
      rw [hreach]
      exact .inl ⟨_, _, _, run_bind_of_error hdir, .nothing⟩
  | none =>
      cases hpair : call.generated with
      | error e =>
          have hreach : call.reach = .nothing := by
            unfold Call.reach
            rw [hpair]
          rw [hreach, Call.generating, generate, run_bind_of_ok (run_createDirAll hfault), hpair]
          exact .inl ⟨.error (.rcgen e), 1, fs, rfl, .nothing⟩
      | ok pair =>
          by_cases hclear : Clear call.faults 1 ∧ Clear call.faults 3
          · exact .inr ⟨pair, rfl, reach_of_clear hfault hpair hclear.1 hclear.2,
              run_generate_of_clear dir fs hfault hpair hclear.1 hclear.2⟩
          · exact .inl (run_generate_of_fault dir fs hfault hpair hclear)

theorem leaves_files (h : ¬ Present dir fs) : Leaves dir call fs call.reach (call.files dir fs) := by
  rw [files_of_missing h]
  rcases run_generate dir call fs with ⟨stop, n, fs', hrun, hleaves⟩ | ⟨pair, hpair, hreach, hrun⟩
  · rw [hrun]
    exact hleaves
  · rw [hrun, hreach]
    exact .keyWhole hpair (tools.keyPem.first_encode _)

end

/-! ### What the files mean for the next call -/

section

variable {dir : PathBuf} {fs : CertFs} {certBytes keyBytes : Bytes}

@[simp] theorem withCert_certPath : withCert dir fs certBytes (certPath dir) = some certBytes :=
  Function.update_self ..

@[simp] theorem withCert_keyPath : withCert dir fs certBytes (keyPath dir) = fs (keyPath dir) :=
  Function.update_of_ne (certPath_ne_keyPath dir).symm ..

@[simp] theorem withPair_certPath : withPair dir fs certBytes keyBytes (certPath dir) = some certBytes := by
  rw [withPair, Function.update_of_ne (certPath_ne_keyPath dir), withCert_certPath]

@[simp] theorem withPair_keyPath : withPair dir fs certBytes keyBytes (keyPath dir) = some keyBytes :=
  Function.update_self ..

/-- The files hold a certificate and a key for it. -/
def Paired (tools : CertTools) (dir : PathBuf) (fs : CertFs) : Prop :=
  ∃ certDer keyDer, readFirstCert tools .never fs (certPath dir) = .ok certDer ∧
    readFirstPkcs8Key tools .never fs (keyPath dir) = .ok keyDer ∧ tools.keyMatches keyDer certDer = true

theorem present_of_paired (h : Paired tools dir fs) : Present dir fs := by
  obtain ⟨certDer, keyDer, hcert, hkey, -⟩ := h
  exact present_of_reads hcert hkey

theorem files_of_present {call : Call tools} (h : Present dir fs) : call.files dir fs = fs := by
  rw [Call.files, Start.files, Start.run_of_sees call.sees h]

theorem result_of_present {call : Call tools} (h : Present dir fs) :
    call.result dir fs = (load tools .never fs (certPath dir) (keyPath dir)).mapError .error := by
  rw [Call.result, Start.result, Start.run_of_sees call.sees h]
  rfl

/-- With a file missing the next call makes both. -/
theorem recovers_of_missing (h : ¬ Present dir fs) : Recovers tools dir fs := by
  intro pair
  have hfault : (Call.clear pair).faults 0 = none := rfl
  have hrun := run_generate_of_clear dir fs hfault rfl ⟨rfl, rfl⟩ ⟨rfl, rfl⟩
  refine ⟨⟨pair.certDer, pair.keyDer, tools.sha256 pair.certDer⟩, ?_, pair.keyMatches⟩
  rw [result_of_missing h, hrun]

theorem recovers_of_paired (h : Paired tools dir fs) : Recovers tools dir fs := by
  obtain ⟨certDer, keyDer, hcert, hkey, hmatch⟩ := id h
  have hload : load tools .never fs (certPath dir) (keyPath dir) = .ok ⟨certDer, keyDer, tools.sha256 certDer⟩ :=
    load_eq_ok_iff.mpr ⟨hcert, hkey, rfl⟩
  intro pair
  refine ⟨⟨certDer, keyDer, tools.sha256 certDer⟩, ?_, hmatch⟩
  rw [result_of_present (present_of_paired h), hload]
  rfl

/-- With both files there a call succeeds only if they are a pair; that there is a new pair does not help. -/
theorem Recovers.paired (h : Recovers tools dir fs) (hpresent : Present dir fs) (pair : KeyMaterial tools) :
    Paired tools dir fs := by
  obtain ⟨material, hresult, hmatch⟩ := h pair
  rw [result_of_present hpresent] at hresult
  cases hload : load tools .never fs (certPath dir) (keyPath dir) with
  | error e => rw [hload] at hresult; cases hresult
  | ok material' =>
      rw [hload] at hresult
      cases hresult
      obtain ⟨hcert, hkey, -⟩ := load_eq_ok_iff.mp hload
      exact ⟨_, _, hcert, hkey, hmatch⟩

theorem paired_iff (hcert : fs (certPath dir) = some certBytes) (hkey : fs (keyPath dir) = some keyBytes) :
    Paired tools dir fs ↔ ∃ certDer keyDer, tools.certPem.first certBytes = some (.ok certDer) ∧
      tools.keyPem.first keyBytes = some (.ok keyDer) ∧ tools.keyMatches keyDer certDer = true := by
  simp only [Paired, readFirstCert, readFirstPkcs8Key, readFirst_eq_ok_iff, LookFaults.never, hcert, hkey,
    Option.some.injEq, exists_eq_left', true_and]

/-- With both files there they must be a pair. -/
theorem recovers_iff (pair : KeyMaterial tools) (hcert : fs (certPath dir) = some certBytes)
    (hkey : fs (keyPath dir) = some keyBytes) :
    Recovers tools dir fs ↔ ∃ certDer keyDer, tools.certPem.first certBytes = some (.ok certDer) ∧
      tools.keyPem.first keyBytes = some (.ok keyDer) ∧ tools.keyMatches keyDer certDer = true := by
  rw [← paired_iff hcert hkey]
  constructor
  · intro h
    exact h.paired ⟨by rw [hcert]; simp, by rw [hkey]; simp⟩ pair
  · exact recovers_of_paired

/-- A certificate alone does not stop the next call from generating. -/
theorem recovers_withCert (hkey : fs (keyPath dir) = none) : Recovers tools dir (withCert dir fs certBytes) :=
  recovers_of_missing fun h => h.2 (withCert_keyPath.trans hkey)

theorem findsKey_iff {call : Call tools} {pair : KeyMaterial tools} (hpair : call.generated = .ok pair)
    (hkey : fs (keyPath dir) = some keyBytes) :
    call.FindsKey dir fs ↔ ∃ keyDer, tools.keyPem.first keyBytes = some (.ok keyDer) ∧
      tools.keyMatches keyDer pair.certDer = true := by
  simp only [Call.FindsKey, hpair, hkey, Except.ok.injEq, Option.some.injEq, exists_and_left,
    exists_eq_left']

/-- **What one call does to the recovery of the next.** -/
theorem recovers_files_iff (call : Call tools) :
    Recovers tools dir (call.files dir fs) ↔ Recovers tools dir fs ∧ call.Safe dir fs := by
  by_cases hpresent : Present dir fs
  · rw [files_of_present hpresent]
    exact ⟨fun h => ⟨h, .inl hpresent⟩, And.left⟩
  · have hleaves := @leaves_files tools dir call fs hpresent
    rw [and_iff_right (recovers_of_missing hpresent), Call.Safe, or_iff_right hpresent]
    generalize call.reach = reach, call.files dir fs = fs' at hleaves
    cases hleaves with
    | nothing => exact iff_of_true (recovers_of_missing hpresent) trivial
    | @certTorn pair bytes hpair hbytes =>
        cases hkey : fs (keyPath dir) with
        | none => exact iff_of_true (recovers_withCert hkey) rfl
        | some keyBytes =>
            rw [recovers_iff pair withCert_certPath (withCert_keyPath.trans hkey)]
            refine iff_of_false ?_ (Option.some_ne_none keyBytes)
            rintro ⟨certDer, -, hcert, -, -⟩
            exact hbytes certDer hcert
    | @certWhole pair bytes hpair hbytes =>
        cases hkey : fs (keyPath dir) with
        | none => exact iff_of_true (recovers_withCert hkey) (.inl rfl)
        | some keyBytes =>
            rw [recovers_iff pair withCert_certPath (withCert_keyPath.trans hkey),
              or_iff_right (Option.some_ne_none keyBytes), findsKey_iff hpair hkey]
            simp only [hbytes, Option.some.injEq, Except.ok.injEq, exists_and_left, exists_eq_left']
    | @keyTorn pair bytes hpair hbytes =>
        rw [recovers_iff pair withPair_certPath withPair_keyPath]
        refine iff_of_false ?_ id
        rintro ⟨-, keyDer, -, hkey, -⟩
        exact hbytes keyDer hkey
    | @keyWhole pair bytes hpair hbytes =>
        rw [recovers_iff pair withPair_certPath withPair_keyPath]
        exact iff_of_true ⟨_, _, tools.certPem.first_encode _, hbytes, pair.keyMatches⟩ trivial

end

/-! ### Sequences of calls -/

section

variable {dir : PathBuf} {fs : CertFs}

theorem filesAfter_of_present (calls : List (Call tools)) (h : Present dir fs) :
    filesAfter dir calls fs = fs := by
  induction calls with
  | nil => rfl
  | cons call calls ih =>
      change filesAfter dir calls (call.files dir fs) = fs
      rw [files_of_present h]
      exact ih

/-- **What a sequence of calls does to the recovery of the next.** -/
theorem recovers_filesAfter_iff (calls : List (Call tools)) :
    Recovers tools dir (filesAfter dir calls fs) ↔ Recovers tools dir fs ∧ SafeAlong dir calls fs := by
  induction calls generalizing fs with
  | nil => exact (and_iff_left trivial).symm
  | cons call calls ih =>
      change Recovers tools dir (filesAfter dir calls (call.files dir fs)) ↔ _
      rw [ih, recovers_files_iff, and_assoc]
      rfl

theorem load_withPair (certDer keyDer : Bytes) :
    load tools .never (withPair dir fs (tools.certPem.encode certDer) (tools.keyPem.encode keyDer)) (certPath dir)
      (keyPath dir) = .ok ⟨certDer, keyDer, tools.sha256 certDer⟩ := by
  refine load_eq_ok_iff.mpr ⟨?_, ?_, rfl⟩
  · rw [readFirstCert, readFirst_eq_ok_iff]
    exact ⟨rfl, _, withPair_certPath, tools.certPem.first_encode certDer⟩
  · rw [readFirstPkcs8Key, readFirst_eq_ok_iff]
    exact ⟨rfl, _, withPair_keyPath, tools.keyPem.first_encode keyDer⟩

/-- A start that returns a pair leaves it in the files. -/
theorem Start.load_of_result {start : Start tools} {material : CertMaterial}
    (h : start.result dir fs = .ok material) :
    Present dir (start.files dir fs) ∧
      load tools .never (start.files dir fs) (certPath dir) (keyPath dir) = .ok material := by
  rw [Start.result, Start.run_eq] at h
  rw [Start.files, Start.run_eq]
  split_ifs at h ⊢ with hexists
  · have hload : load tools start.looks fs (certPath dir) (keyPath dir) = .ok material := by
      cases hload : load tools start.looks fs (certPath dir) (keyPath dir) with
      | error e => rw [hload] at h; cases h
      | ok material' =>
          rw [hload] at h
          cases h
          rfl
    obtain ⟨hcert, hkey, -⟩ := load_eq_ok_iff.mp hload
    exact ⟨present_of_reads hcert hkey, load_never hload⟩
  · rcases run_generate dir start.toCall fs with ⟨stop, n, fs', hrun, -⟩ | ⟨pair, -, -, hrun⟩
    · rw [hrun] at h
      cases h
    · rw [hrun] at h ⊢
      cases h
      exact ⟨⟨by simp, by simp⟩, load_withPair pair.certDer pair.keyDer⟩

/-- What a call returned is what every later call returns. -/
theorem result_of_result {call next : Call tools} {material : CertMaterial} (after : List (Call tools))
    (h : call.result dir fs = .ok material) :
    next.result dir (filesAfter dir after (call.files dir fs)) = .ok material := by
  obtain ⟨hpresent, hload⟩ := Start.load_of_result h
  change next.result dir (filesAfter dir after (call.start.files dir fs)) = _
  rw [filesAfter_of_present after hpresent, result_of_present hpresent, hload]
  rfl

theorem filesAfter_append (before after : List (Call tools)) :
    filesAfter dir (before ++ after) fs = filesAfter dir after (filesAfter dir before fs) :=
  List.foldl_append ..

/-- **The certificate is kept over a sequence of calls if and only if every call is safe.** -/
theorem cert_kept_iff (hstart : fs (certPath dir) = none ∨ fs (keyPath dir) = none)
    (calls : List (Call tools)) : CertKept dir calls fs ↔ SafeAlong dir calls fs := by
  have hmissing : ¬ Present dir fs := fun h => hstart.elim h.1 h.2
  have hrecovers := @recovers_filesAfter_iff tools dir fs calls
  rw [and_iff_right (recovers_of_missing hmissing)] at hrecovers
  constructor
  · intro h
    exact hrecovers.mp h.recovers
  · intro hsafe
    refine ⟨hrecovers.mpr hsafe, ?_⟩
    rintro before call after material rfl hresult next
    rw [filesAfter_append]
    exact result_of_result after hresult

end

/-! ### A restart and two failures -/

/-- The error of a section that cannot be read. -/
def sectionError (label : Text) : PemText.Failure → Text
  | .missingSectionEnd => "section end \"-----END ".toList ++ label ++ "-----\" missing".toList
  | .base64Decode => "base64 decode error".toList

/-- Files with a single section. -/
def sectionPem (label : Text) : Pem where
  encode := PemText.encode label
  first file := (PemText.first label file).map (·.mapError (sectionError label))
  needed der := (PemText.core label der).length
  needed_le der := by
    rw [PemText.encode, List.length_append]
    exact Nat.le_add_right _ _
  first_take h := by
    rw [PemText.first_take h]
    rfl
  first_cut der' h := by
    intro hfirst
    obtain ⟨r, hr, hmap⟩ := Option.map_eq_some_iff.mp hfirst
    cases r with
    | error e => cases hmap
    | ok der =>
        cases hmap
        exact PemText.first_cut der' h hr

/-- A sequence of one number. -/
def sequenceOf (n : UInt8) : Bytes := [0x30, 3, 2, 1, n]

/-- The SHA-256 digest of `sequenceOf 7`. -/
def digestOfSeven : Vector UInt8 32 :=
  #v[0xec, 0xed, 0xa6, 0x10, 0x45, 0xdb, 0x14, 0x5d, 0x20, 0x9d, 0xeb, 0xf0, 0xd2, 0x45, 0xe4, 0x4b,
    0x5b, 0x1c, 0xc5, 0x2e, 0x3c, 0x04, 0x26, 0x6a, 0xa2, 0xa4, 0x86, 0xfd, 0xb6, 0xa2, 0xb2, 0x85]

/-- A key and a certificate match if they have the same number; only one digest is looked at. -/
def sampleTools : CertTools where
  certPem := sectionPem "CERTIFICATE".toList
  keyPem := sectionPem "PRIVATE KEY".toList
  sha256 der := if der = sequenceOf 7 then digestOfSeven else Vector.replicate 32 0
  keyMatches keyDer certDer := keyDer = certDer

def samplePair : KeyMaterial sampleTools := ⟨sequenceOf 7, sequenceOf 7, rfl⟩

/-- A call whose process stops in operation `n` after so much of it. -/
def stoppedCall (n done : ℕ) : Call sampleTools :=
  ⟨.ok samplePair, fun i => if i = n then some (.crash done) else none⟩

/-- A first start that is stopped while it writes the certificate, and a second one that is not. -/
theorem cert_kept_restart :
    CertKept [0x64] [stoppedCall 2 1, .clear samplePair] fun _ => none :=
  (cert_kept_iff (.inl rfl) _).mpr ⟨.inr rfl, .inr trivial, trivial⟩

/-- The old key of the second failure. -/
def oldKey : CertFs :=
  Function.update (fun _ => none) (keyPath [0x64]) (some (sampleTools.keyPem.encode (sequenceOf 8)))

/-- A first start that is stopped when it has created the key file: no later start succeeds.  And one that
finds an old key and is stopped when it has written the certificate: the next start returns that key. -/
theorem torn_pair_not_kept :
    (Call.clear samplePair).result [0x64] (filesAfter [0x64] [stoppedCall 3 1] fun _ => none) =
        .error (.error (.pemNoKey (displayPath (keyPath [0x64])))) ∧
      ¬ CertKept [0x64] [stoppedCall 3 1] (fun _ => none) ∧
      (Call.clear samplePair).result [0x64] (filesAfter [0x64] [stoppedCall 3 0] oldKey) =
        .ok ⟨sequenceOf 7, sequenceOf 8, digestOfSeven⟩ ∧
      sampleTools.keyMatches (sequenceOf 8) (sequenceOf 7) = false := by
  have hresult : (Call.clear samplePair).result [0x64] (filesAfter [0x64] [stoppedCall 3 1] fun _ => none) =
      .error (.error (.pemNoKey (displayPath (keyPath [0x64])))) := rfl
  refine ⟨hresult, fun h => ?_, rfl, rfl⟩
  obtain ⟨material, hok, -⟩ := h.recovers samplePair
  rw [hresult] at hok
  cases hok

end Cert

end Tuyau
