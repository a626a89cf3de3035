import SsdLinux.Sysinst.Media
import SsdLinux.Sysinst.Network
import SsdLinux.Sysinst.Tasks

/-!
# `sysinst`: fetching and unpacking the binaries

The binaries are archives, one for each distribution.  They are on a CD-ROM, or `ftp` fetches them
to a directory of the new system first (`set_ftp`, `do_ftp`).  An archive that has been chosen is
unpacked if it is there, and `flag_result` says whether it was.

* A login name or a password that does not fit into its array leaves `set_ftp` without a result.
* `ftp` takes the first `@` of a URL for the end of the password, so that `at2per` puts a `%` in its
  place.

`distributions_right` says which archives are unpacked, and `fetch_right` what is fetched.
-/

set_option autoImplicit false

namespace Sysinst

open CLib

def MAXPATHLEN : ℕ := 4096

/-! ## Distributions -/

/-- `dist_list`.  What is shown of a distribution is left out. -/
def distList (b : Build) : List Dist :=
  [⟨cstr "kern", true, 0⟩, ⟨cstr "base", true, 0⟩, ⟨cstr "etc", true, 0⟩, ⟨cstr "comp", true, 0⟩]
    ++ (if b.kernel then [⟨cstr "cross", true, 0⟩] else [])
    ++ [⟨cstr "man", true, 0⟩]
    ++ (if b.contrib then [⟨cstr "contrib", false, 0⟩] else [])
    ++ [⟨cstr "src", false, 0⟩]

def NUM_DIST (b : Build) : ℕ := if b.kernel || b.contrib then 7 else 6

/-- `DIST_PATH`. -/
def distPath : Bytes := cstr "binary"

/-- An archive on the CD-ROM. -/
def cdromArchive (b : Build) (d : Dist) : Bytes :=
  printBuf (cdrom ++ slash :: b.arch ++ slash :: distPath ++ slash :: d.name ++ cstr ".tgz")

/-- An archive that has been fetched. -/
def localArchive (localDir : Bytes) (d : Dist) : Bytes :=
  printBuf (target ++ localDir ++ slash :: d.name ++ cstr ".tgz")

/-- A round of the loop that unpacks. -/
def extract (fromCdrom : Bool) (archive : Dist → Bytes) (d : Dist) : Prog Dist := do
  if d.flagInst then
    if ← isThere (archive d) then
      run (.untar fromCdrom (archive d))
      pure { d with flagResult := 1 }
    else pure { d with flagResult := -1 }
  else pure d

/-- `do_extract_from_cdrom`. -/
def doExtractFromCdrom (b : Build) (md : Medium) (l : List Dist) : Prog (List Dist) := do
  run (.mountCdrom md.name)
  let l' ← Dialog.forEach (l.take (NUM_DIST b)) (extract true (cdromArchive b))
  run .umountCdrom
  pure (l' ++ l.drop (NUM_DIST b))

/-! ## The settings of `ftp` -/

/-- `ftp_t`. -/
structure Ftp where
  server : Bytes
  remoteDir : Bytes
  localDir : Bytes
  proxy : Bytes
  login : Bytes
  passwd : Bytes
  deriving DecidableEq

/-- What `set_ftp` begins with. -/
def Ftp.start (b : Build) (net : Net) : Ftp where
  server := cstr "ftp.plathome.co.jp"
  remoteDir := (cstr "/pub/ssdlinux" ++ slash :: b.release ++ slash :: b.arch ++ slash :: distPath
    ).take (MAXPATHLEN - 1)
  localDir := cstr "/usr/INST"
  proxy := []
  login := cstr "ftp"
  passwd := if net.domain = [] then cstr "Your_Mail_Address"
    else (cstr "root@" ++ net.domain).take (NAMELEN * 3 - 1)

/-- A command, and what is entered after it. -/
def ftpCommand (c : ℤ) (ftp : Ftp) (rest : Bytes) : Option (Ftp × Bytes) :=
  let enter (n size : ℕ) (f : Bytes → Ftp) : Option (Ftp × Bytes) :=
    (fgets n rest).bind fun (buf, rest) ↦
      if (chop buf).length < size then some (f (chop buf), rest) else none
  if c = 48 then enter (MAXHOSTNAMELEN - 1) MAXHOSTNAMELEN fun s ↦ { ftp with server := s }
  else if c = 49 then enter (MAXPATHLEN - 1) MAXPATHLEN fun s ↦ { ftp with remoteDir := s }
  else if c = 50 then enter (MAXPATHLEN - 1) MAXPATHLEN fun s ↦ { ftp with localDir := s }
  else if c = 51 then enter (MAXHOSTNAMELEN - 1) MAXHOSTNAMELEN fun s ↦ { ftp with proxy := s }
  else if c = 52 then enter (BUFSIZ - 1) NAMELEN fun s ↦ { ftp with login := s }
  else if c = 53 then enter (BUFSIZ - 1) (NAMELEN * 3) fun s ↦ { ftp with passwd := s }
  else some (ftp, rest)

/-- `set_ftp`. -/
def setFtp (b : Build) (net : Net) (input : Bytes) : Option (Ftp × Bytes) :=
  menuLoop b.signed ftpCommand (Ftp.start b net) input

/-- The settings are in their arrays. -/
structure Ftp.Fits (ftp : Ftp) : Prop where
  server : ftp.server.length < MAXHOSTNAMELEN
  remoteDir : ftp.remoteDir.length < MAXPATHLEN
  localDir : ftp.localDir.length < MAXPATHLEN
  proxy : ftp.proxy.length < MAXHOSTNAMELEN
  login : ftp.login.length < NAMELEN
  passwd : ftp.passwd.length < NAMELEN * 3

theorem Ftp.fits_start (b : Build) (net : Net) : (Ftp.start b net).Fits where
  server := show (cstr "ftp.plathome.co.jp").length < MAXHOSTNAMELEN by decide
  remoteDir := (List.length_take_le ..).trans_lt (by decide)
  localDir := show (cstr "/usr/INST").length < MAXPATHLEN by decide
  proxy := show ([] : Bytes).length < MAXHOSTNAMELEN by decide
  login := show (cstr "ftp").length < NAMELEN by decide
  passwd := by
    rw [Ftp.start]
    dsimp only
    split_ifs
    · decide
    · exact (List.length_take_le ..).trans_lt (by decide)

theorem Ftp.Fits.command {c : ℤ} {ftp ftp' : Ftp} {rest rest' : Bytes}
    (h : ftpCommand c ftp rest = some (ftp', rest')) (hfits : ftp.Fits) : ftp'.Fits := by
  have henter : ∀ {n size : ℕ} (f : Bytes → Ftp), ((fgets n rest).bind fun x ↦
      if (chop x.1).length < size then some (f (chop x.1), x.2) else none) = some (ftp', rest') →
        ∃ s, s.length < size ∧ f s = ftp' := fun f h ↦ by
    obtain ⟨⟨buf, mid⟩, -, h⟩ := Option.bind_eq_some_iff.1 h
    dsimp only at h
    split_ifs at h with hlen
    cases h
    exact ⟨_, hlen, rfl⟩
  rw [ftpCommand] at h
  dsimp only at h
  split_ifs at h
  · obtain ⟨s, hs, rfl⟩ := henter (fun s ↦ { ftp with server := s }) h
    exact { hfits with server := hs }
  · obtain ⟨s, hs, rfl⟩ := henter (fun s ↦ { ftp with remoteDir := s }) h
    exact { hfits with remoteDir := hs }
  · obtain ⟨s, hs, rfl⟩ := henter (fun s ↦ { ftp with localDir := s }) h
    exact { hfits with localDir := hs }
  · obtain ⟨s, hs, rfl⟩ := henter (fun s ↦ { ftp with proxy := s }) h
    exact { hfits with proxy := hs }
  · obtain ⟨s, hs, rfl⟩ := henter (fun s ↦ { ftp with login := s }) h
    exact { hfits with login := hs }
  · obtain ⟨s, hs, rfl⟩ := henter (fun s ↦ { ftp with passwd := s }) h
    exact { hfits with passwd := hs }
  · cases h
    exact hfits

/-- **What is entered fits.** -/
theorem fits_of_setFtp {b : Build} {net : Net} {input rest : Bytes} {ftp : Ftp}
    (h : setFtp b net input = some (ftp, rest)) : ftp.Fits :=
  menuLoop_keeps Ftp.Fits.command h (Ftp.fits_start b net)

/-- `set_proxy`. -/
def setProxy (ftp : Ftp) : Prog Unit := do
  if ftp.proxy ≠ [] then run (.proxy ftp.proxy)

/-! ## Fetching -/

/-- `@`. -/
abbrev atSign : UInt8 := 64

/-- `at2per`. -/
def at2per (source : Bytes) : Bytes := source.map fun c ↦ if c = atSign then percent else c

/-- The command that fetches a distribution. -/
def fetchTask (ftp : Ftp) (d : Dist) : Task :=
  .fetch ftp.localDir ftp.login (at2per ftp.passwd) ftp.server ftp.remoteDir d.name

/-- `do_ftp`. -/
def doFtp (b : Build) (ftp : Ftp) (l : List Dist) : Prog Unit := do
  run (.makeLocal ftp.localDir)
  let _ ← Dialog.forEach ((l.take (NUM_DIST b)).filter Dist.flagInst) fun d ↦
    run (fetchTask ftp d)

/-- `do_extract_from_ftp`. -/
def doExtractFromFtp (b : Build) (ftp : Ftp) (l : List Dist) : Prog (List Dist) := do
  let l' ← Dialog.forEach (l.take (NUM_DIST b)) (extract false (localArchive ftp.localDir))
  pure (l' ++ l.drop (NUM_DIST b))

/-! ## Which archives are unpacked -/

/-- The archives that have been looked for, and whether they were there. -/
def looks (t : List Act) : List (Bytes × Bool) :=
  t.filterMap fun
    | .stat path found => some (path, found)
    | _ => none

/-- The archives that have been unpacked. -/
def unpacked (t : List Act) : List Bytes :=
  t.filterMap fun
    | .task (.untar _ archive) => some archive
    | _ => none

/-- **The archives of the distributions that have been chosen are unpacked**, each of them once and
in their order, unless they are not there, and the results say so. -/
structure Extracted (archive : Dist → Bytes) (l l' : List Dist) (t : List Act) : Prop where
  looked : (looks t).map Prod.fst = (l.filter Dist.flagInst).map archive
  unpacked : unpacked t = ((looks t).filter Prod.snd).map Prod.fst
  results : (l'.filter Dist.flagInst).map Dist.flagResult =
    (looks t).map fun x ↦ if x.2 then 1 else -1
  names : l'.map (fun d ↦ (d.name, d.flagInst)) = l.map fun d ↦ (d.name, d.flagInst)
  others : l'.filter (fun d ↦ !d.flagInst) = l.filter fun d ↦ !d.flagInst

variable {fromCdrom : Bool} {archive : Dist → Bytes} {d d' : Dist} {s rest : Outside}
  {t t' : List Act} {l l' k k' : List Dist}

theorem Extracted.append (h : Extracted archive l l' t) (h' : Extracted archive k k' t') :
    Extracted archive (l ++ k) (l' ++ k') (t ++ t') := by
  have hlooks : looks (t ++ t') = looks t ++ looks t' := List.filterMap_append
  refine ⟨?_, ?_, ?_, ?_, ?_⟩
  · rw [hlooks, List.map_append, h.looked, h'.looked, List.filter_append, List.map_append]
  · rw [hlooks, List.filter_append, List.map_append, ← h.unpacked, ← h'.unpacked]
    exact List.filterMap_append
  · rw [hlooks, List.map_append, List.filter_append, List.map_append, h.results, h'.results]
  · rw [List.map_append, List.map_append, h.names, h'.names]
  · rw [List.filter_append, List.filter_append, h.others, h'.others]

/-- **One distribution.** -/
theorem extracted_extract (h : extract fromCdrom archive d s = (t, .value d' rest)) :
    Extracted archive [d] [d'] t := by
  rw [extract] at h
  split at h
  · rename_i hinst
    obtain ⟨t₁, ok, mid, t₂, hthere, hend, rfl⟩ := Dialog.bind_eq_value_iff.1 h
    obtain rfl := isThere_value hthere
    split at hend
    · rename_i hok
      obtain ⟨t₃, ⟨⟩, mid', t₄, hrun, hpure, rfl⟩ := Dialog.bind_eq_value_iff.1 hend
      obtain rfl := run_value hrun
      cases hpure
      constructor <;> simp [looks, Sysinst.unpacked, hinst, hok]
    · rename_i hok
      cases hend
      constructor <;> simp [looks, Sysinst.unpacked, hinst, hok]
  · rename_i hinst
    cases h
    constructor <;> simp [looks, Sysinst.unpacked, hinst]

/-- **The loop that unpacks.** -/
theorem extracted_forEach
    (h : Dialog.forEach l (extract fromCdrom archive) s = (t, .value l' rest)) :
    Extracted archive l l' t := by
  refine Dialog.forEach_value (R := fun l t l' ↦ Extracted archive l l' t)
    ⟨rfl, rfl, rfl, rfl, rfl⟩ ?_ h
  intro d l s t d' rest t' l' hd hl
  exact (extracted_extract hd).append hl

theorem Extracted.length_eq (h : Extracted archive l l' t) : l'.length = l.length := by
  simpa using congrArg List.length h.names

/-- What the loop leaves, with the distributions that are not on the menu. -/
theorem extracted_take {n : ℕ}
    (h : Dialog.forEach (l.take n) (extract fromCdrom archive) s = (t, .value l' rest)) :
    Extracted archive (l.take n) ((l' ++ l.drop n).take n) t ∧
      (l' ++ l.drop n).drop n = l.drop n := by
  have hall := extracted_forEach h
  have hlen := hall.length_eq
  rcases Nat.le_total n l.length with hn | hn
  · rw [List.length_take_of_le hn] at hlen
    rw [List.take_left' hlen, List.drop_left' hlen]
    exact ⟨hall, rfl⟩
  · rw [List.drop_of_length_le hn, List.append_nil]
    rw [List.take_of_length_le hn] at hall hlen ⊢
    rw [List.take_of_length_le (hlen.trans_le hn), List.drop_of_length_le (hlen.trans_le hn)]
    exact ⟨hall, rfl⟩

theorem unpacked_cdrom {b : Build} {md : Medium}
    (h : doExtractFromCdrom b md l s = (t, .value l' rest)) :
    ∃ t', t = .task (.mountCdrom md.name) :: (t' ++ [.task .umountCdrom]) ∧
      Extracted (cdromArchive b) (l.take (NUM_DIST b)) (l'.take (NUM_DIST b)) t' ∧
      l'.drop (NUM_DIST b) = l.drop (NUM_DIST b) := by
  obtain ⟨t₁, ⟨⟩, mid, t₂, hmount, hrest, rfl⟩ := Dialog.bind_eq_value_iff.1 h
  obtain ⟨t₃, as, mid', t₄, hloop, hend, rfl⟩ := Dialog.bind_eq_value_iff.1 hrest
  obtain ⟨t₅, ⟨⟩, mid'', t₆, humount, hpure, rfl⟩ := Dialog.bind_eq_value_iff.1 hend
  obtain rfl := run_value hmount
  obtain rfl := run_value humount
  cases hpure
  exact ⟨t₃, rfl, extracted_take hloop⟩

theorem unpacked_ftp {b : Build} {ftp : Ftp}
    (h : doExtractFromFtp b ftp l s = (t, .value l' rest)) :
    Extracted (localArchive ftp.localDir) (l.take (NUM_DIST b)) (l'.take (NUM_DIST b)) t ∧
      l'.drop (NUM_DIST b) = l.drop (NUM_DIST b) := by
  obtain ⟨t₁, as, mid, t₂, hloop, hpure, rfl⟩ := Dialog.bind_eq_value_iff.1 h
  cases hpure
  rw [List.append_nil]
  exact extracted_take hloop

/-- **From the menu to the archives**: a distribution is chosen if it is so in the beginning and its
number is answered an even number of times, or the other way round; and what is chosen is unpacked,
from either medium. -/
theorem distributions_right (b : Build) (input rest : Bytes) (l : List Dist)
    (h : setDistributions b.signed (NUM_DIST b) (distList b) input = some (l, rest)) :
    (∃ cs, answers b.signed input = some (cs, rest) ∧ ∀ i < NUM_DIST b,
      l[i]? = (distList b)[i]?.map fun d ↦
        { d with flagInst := d.flagInst ^^ decide (cs.count (48 + (i : ℤ)) % 2 = 1) }) ∧
    (∀ md s t l' rest', doExtractFromCdrom b md l s = (t, .value l' rest') →
      ∃ t', t = .task (.mountCdrom md.name) :: (t' ++ [.task .umountCdrom]) ∧
        Extracted (cdromArchive b) (l.take (NUM_DIST b)) (l'.take (NUM_DIST b)) t') ∧
    ∀ ftp s t l' rest', doExtractFromFtp b ftp l s = (t, .value l' rest') →
      Extracted (localArchive ftp.localDir) (l.take (NUM_DIST b)) (l'.take (NUM_DIST b)) t := by
  rw [setDistributions, menu_eq] at h
  obtain ⟨⟨cs, rest'⟩, hcs, heq⟩ := Option.map_eq_some_iff.1 h
  cases heq
  refine ⟨⟨cs, hcs, fun i hi ↦ toggle_answers hi _ cs⟩, fun md s t l' rest' hrun ↦ ?_,
    fun ftp s t l' rest' hrun ↦ (unpacked_ftp hrun).1⟩
  obtain ⟨t', ht, hall, -⟩ := unpacked_cdrom hrun
  exact ⟨t', ht, hall⟩

/-- A program with six distributions. -/
def smallBuild : Build :=
  ⟨false, false, false, false, false, false, true, cstr "0.2", cstr "2.4.26", cstr "i386"⟩

/-- The distributions of which the sources have been taken in. -/
def withSources : List Dist :=
  (distList smallBuild).modify 5 fun d ↦ { d with flagInst := true }

/-- The settings for `ftp` before anything is entered. -/
def smallFtp : Ftp := Ftp.start smallBuild ⟨[], [], [], [], [], [], []⟩

/-- With the sources, and without the archive `base.tgz`, five archives are unpacked. -/
theorem distributions_right_withSources : ∃ cs t l',
    answers true (cstr "5\nx\n") = some (cs, []) ∧
    (∀ i < NUM_DIST smallBuild, withSources[i]? = (distList smallBuild)[i]?.map fun d ↦
      { d with flagInst := d.flagInst ^^ decide (cs.count (48 + (i : ℤ)) % 2 = 1) }) ∧
    doExtractFromFtp smallBuild smallFtp withSources ⟨[], [true, true, false]⟩
      = (t, .value l' ⟨[], []⟩) ∧
    Extracted (localArchive (cstr "/usr/INST")) (withSources.take 6) (l'.take 6) t ∧
    unpacked t = [cstr "kern", cstr "etc", cstr "comp", cstr "man", cstr "src"].map fun name ↦
      cstr "/mnt/usr/INST/" ++ name ++ cstr ".tgz" := by
  obtain ⟨⟨cs, hcs, hall⟩, -, hftp⟩ :=
    distributions_right smallBuild (cstr "5\nx\n") [] withSources (by decide +kernel)
  have hrun : doExtractFromFtp smallBuild smallFtp withSources ⟨[], [true, true, false]⟩
      = (_, .value _ ⟨[], []⟩) := rfl
  exact ⟨cs, _, _, hcs, hall, hrun, hftp _ _ _ _ _ hrun, by decide +kernel⟩

/-! ## What is fetched -/

/-- The URL of an archive, without its scheme. -/
def fetchUrl (ftp : Ftp) (d : Dist) : Bytes :=
  ftp.login ++ cstr ":" ++ at2per ftp.passwd ++ atSign :: (ftp.server ++ ftp.remoteDir
    ++ cstr "/" ++ d.name ++ cstr ".tgz")

theorem text_fetchTask (ftp : Ftp) (d : Dist) : (fetchTask ftp d).text =
    printBuf (cstr "cd " ++ target ++ ftp.localDir ++ cstr " && /usr/bin/ftp ftp://"
      ++ fetchUrl ftp d) := by
  have hat : cstr "@" = [atSign] := rfl
  rw [fetchTask, Task.text, fetchUrl, hat]
  simp only [List.append_assoc, List.cons_append, List.nil_append]

theorem atSign_notMem_at2per (source : Bytes) : atSign ∉ at2per source := by
  rw [at2per, List.mem_map]
  rintro ⟨c, -, hc⟩
  split_ifs at hc with h
  · exact absurd hc (by decide)
  · exact h hc

theorem at2per_eq_self_iff (source : Bytes) : at2per source = source ↔ atSign ∉ source := by
  refine ⟨fun h ↦ h ▸ atSign_notMem_at2per source, fun h ↦ ?_⟩
  refine (List.map_congr_left fun c hc ↦ if_neg ?_).trans (List.map_id' source)
  rintro rfl
  exact h hc

/-- What stands before the URL in the command. -/
def beforeUrl (ftp : Ftp) : Bytes :=
  cstr "cd " ++ target ++ ftp.localDir ++ cstr " && /usr/bin/ftp ftp://"

/-- **The command reaches behind the password**, however long the rest of it is. -/
theorem exists_url {ftp : Ftp} (hfits : ftp.Fits) (hlogin : atSign ∉ ftp.login) (d : Dist) :
    ∃ url, (fetchTask ftp d).text = beforeUrl ftp ++ url ∧ url <+: fetchUrl ftp d ∧
      atSign ∈ url ∧
        url.takeWhile (· ≠ atSign) = ftp.login ++ cstr ":" ++ at2per ftp.passwd := by
  have hbefore : ∀ c ∈ ftp.login ++ cstr ":" ++ at2per ftp.passwd,
      decide (c ≠ atSign) = true := by
    intro c hc
    rw [decide_eq_true_eq]
    rintro rfl
    rw [List.mem_append, List.mem_append] at hc
    exact hc.elim (fun hc ↦ hc.elim hlogin (by decide)) (atSign_notMem_at2per _)
  have hlen : (beforeUrl ftp).length + (ftp.login ++ cstr ":" ++ at2per ftp.passwd).length
      < BUFSIZ - 1 := by
    have h1 : ftp.localDir.length < 4096 := hfits.localDir
    have h2 : ftp.login.length < 16 := hfits.login
    have h3 : ftp.passwd.length < 48 := hfits.passwd
    have h4 : (cstr "cd " ++ target).length = 7 := by decide
    have h5 : (cstr " && /usr/bin/ftp ftp://").length = 23 := by decide
    have h6 : (cstr ":").length = 1 := rfl
    have h7 : BUFSIZ - 1 = 8191 := rfl
    simp only [beforeUrl, at2per, List.length_append, List.length_map] at h4 ⊢
    omega
  obtain ⟨room, hroom⟩ := Nat.exists_eq_add_of_lt hlen
  refine ⟨(fetchUrl ftp d).take (BUFSIZ - 1 - (beforeUrl ftp).length), ?_, List.take_prefix _ _,
    ?_⟩
  · rw [text_fetchTask, ← beforeUrl, printBuf, List.take_append,
      List.take_of_length_le (by omega)]
  · have htake : (fetchUrl ftp d).take (BUFSIZ - 1 - (beforeUrl ftp).length)
        = ftp.login ++ cstr ":" ++ at2per ftp.passwd ++ atSign :: ((ftp.server ++ ftp.remoteDir
          ++ cstr "/" ++ d.name ++ cstr ".tgz").take room) := by
      rw [fetchUrl, List.take_append, List.take_of_length_le (by omega),
        show BUFSIZ - 1 - (beforeUrl ftp).length
          - (ftp.login ++ cstr ":" ++ at2per ftp.passwd).length = room + 1 by omega,
        List.take_succ_cons]
    rw [htake]
    refine ⟨List.mem_append_right _ List.mem_cons_self, ?_⟩
    rw [List.takeWhile_append_of_pos hbefore, List.takeWhile_cons_of_neg (by simp),
      List.append_nil]

theorem doFtp_value {b : Build} {ftp : Ftp} (h : doFtp b ftp l s = (t, .value () rest)) :
    t = .task (.makeLocal ftp.localDir) ::
      ((l.take (NUM_DIST b)).filter Dist.flagInst).map fun d ↦ .task (fetchTask ftp d) := by
  obtain ⟨t₁, ⟨⟩, mid, t₂, hmake, hrest, rfl⟩ := Dialog.bind_eq_value_iff.1 h
  obtain ⟨t₃, as, mid', t₄, hloop, hpure, rfl⟩ := Dialog.bind_eq_value_iff.1 hrest
  obtain rfl := run_value hmake
  cases hpure
  rw [List.append_nil, List.singleton_append]
  refine congrArg _ (Dialog.forEach_value (R := fun l t _ ↦ t = l.map _) rfl ?_ hloop)
  rintro d l s t ⟨⟩ rest t' as hd rfl
  rw [run_value hd]
  rfl

/-- **What is fetched**: the archives of the distributions that have been chosen, in their order.
`ftp` takes what is before the first `@` of the URL for the login, which has none itself, and the
password with a `%` for each `@`; that is the password itself only if it has none. -/
theorem fetch_right {b : Build} {net : Net} {input left : Bytes} {ftp : Ftp}
    (hset : setFtp b net input = some (ftp, left)) (hlogin : atSign ∉ ftp.login) {l : List Dist}
    {s rest : Outside} {t : List Act} (h : doFtp b ftp l s = (t, .value () rest)) :
    t = .task (.makeLocal ftp.localDir) ::
      ((l.take (NUM_DIST b)).filter Dist.flagInst).map (fun d ↦ .task (fetchTask ftp d)) ∧
    (∀ d, ∃ url, (fetchTask ftp d).text = cstr "cd " ++ target ++ ftp.localDir
        ++ cstr " && /usr/bin/ftp ftp://" ++ url ∧ url <+: fetchUrl ftp d ∧ atSign ∈ url ∧
      url.takeWhile (· ≠ atSign) = ftp.login ++ cstr ":" ++ at2per ftp.passwd) ∧
    (at2per ftp.passwd = ftp.passwd ↔ atSign ∉ ftp.passwd) :=
  ⟨doFtp_value h, exists_url (fits_of_setFtp hset) hlogin, at2per_eq_self_iff _⟩

/-- The settings for a user who gives an address for his password. -/
def rootFtp : Ftp := { smallFtp with passwd := cstr "root@localhost" }

/-- Five archives are fetched, the first as `kern.tgz` with `root%localhost` for a password. -/
theorem fetch_right_smallBuild : ∃ url,
    doFtp smallBuild rootFtp (distList smallBuild) ⟨[], []⟩
      = (.task (.makeLocal (cstr "/usr/INST")) ::
          [cstr "kern", cstr "base", cstr "etc", cstr "comp", cstr "man"].map fun name ↦
            .task (fetchTask rootFtp ⟨name, true, 0⟩), .value () ⟨[], []⟩) ∧
    (fetchTask rootFtp ⟨cstr "kern", true, 0⟩).text
      = cstr "cd /mnt/usr/INST && /usr/bin/ftp ftp://" ++ url ∧
    url.takeWhile (· ≠ atSign) = cstr "ftp:root%localhost" := by
  have hset : setFtp smallBuild ⟨[], [], [], [], [], [], []⟩ (cstr "5\nroot@localhost\nx\n")
      = some (rootFtp, []) := by decide +kernel
  have hrun : doFtp smallBuild rootFtp (distList smallBuild) ⟨[], []⟩
      = (_, .value () ⟨[], []⟩) := rfl
  obtain ⟨ht, htext, -⟩ := fetch_right hset (by decide) hrun
  obtain ⟨url, hurl, -, -, hlogin⟩ := htext ⟨cstr "kern", true, 0⟩
  exact ⟨url, hrun.trans (congrArg (·, _) ht), hurl, hlogin⟩

end Sysinst
