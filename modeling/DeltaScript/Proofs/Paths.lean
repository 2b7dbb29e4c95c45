import DeltaScript.Files.Output
import DeltaScript.Proofs.Printing
import DeltaScript.Proofs.Splitting

/-!
# Names of output files

Of several segments each is written to a file of its own, whose name has the load address in it.
The names have to differ, and the files have to end up in the directory of the path that was given.

* `Path.IsName` — what a step has to be to name a file.
* `Path.Lead` — the steps in front of a file name, which are what `Path.parent?` keeps.
* `Path.fileName?_withFileName`, `Path.parent?_withFileName` — **another file name leaves the parent
  as it is**, to the letter.
* `toList_segmentFileName` — the name of a segment's file is the whole one with the address put in.
* `segmentFileName_injective` — **different addresses lead to different names**, because a numeral
  has one value.
* `nodup_fileNames`, `segmentPaths_spec` — where segments are written.
-/

namespace DeltaScript

namespace Path

/-- What a step has to be to name a file. -/
structure IsName (step : List Char) : Prop where
  ne_nil : step ≠ []
  slash : '/' ∉ step
  here : step ≠ ['.']
  up : step ≠ ['.', '.']

variable {p : Path} {rooted : Bool} {step : List Char} {k : ℕ}

theorem partOf_eq_name_iff {text : String} :
    partOf step = .name text ↔ step ≠ ['.'] ∧ step ≠ ['.', '.'] ∧ text = String.ofList step := by
  unfold partOf
  split_ifs with hhere hup
  · simp [eq_of_beq hhere]
  · simp [eq_of_beq hup]
  · have hhere : step ≠ ['.'] := by simpa using hhere
    have hup : step ≠ ['.', '.'] := by simpa using hup
    rw [PathPart.name.injEq]
    exact ⟨fun h => ⟨hhere, hup, h.symm⟩, fun h => h.2.2.symm⟩

theorem IsName.partOf (h : IsName step) : partOf step = .name (String.ofList step) :=
  partOf_eq_name_iff.mpr ⟨h.here, h.up, rfl⟩

theorem IsName.isIdle (h : IsName step) : isIdle rooted (step, k) = false := by
  simp [Path.isIdle, h.ne_nil, h.here]

theorem fileName?_eq_some_iff {name : String} :
    p.fileName? = some name ↔ p.parts.getLast? = some (.name name) := by
  rw [fileName?]
  split
  · next text hlast => simp [hlast]
  · next hlast => exact iff_of_false (by simp) (hlast name)

/-- Paths with the same parts have the same file name. -/
theorem fileName?_congr {q : Path} (h : q.parts = p.parts) : q.fileName? = p.fileName? := by
  rw [fileName?, h, fileName?]

/-! ## Steps -/

theorem slash_notMem_steps (p : Path) : ∀ step ∈ p.steps, '/' ∉ step := by
  intro step hstep
  rw [steps] at hstep
  split_ifs at hstep
  · exact Text.notMem_splitOn '/' _ step (List.mem_of_mem_drop hstep)
  · exact Text.notMem_splitOn '/' _ step hstep

/-- A path that does not start at the root does not start with a slash. -/
theorem head?_steps_ne (hrooted : p.isRooted = false) (htext : p.text.toList ≠ []) :
    p.steps.head? ≠ some [] := by
  obtain ⟨c, text, heq⟩ := List.exists_cons_of_ne_nil htext
  have hc : (c == '/') = false := by simpa [isRooted, heq] using hrooted
  have hsteps : p.steps = (text.splitOn '/').modifyHead (List.cons c) := by
    simp [steps, hrooted, heq, List.splitOn_cons_eq_if_modifyHead, hc]
  rw [hsteps]
  cases text.splitOn '/' <;> simp

/-! ## The steps in front of the file name -/

/-- Steps that can stand in front of a file name. -/
structure Lead (rooted : Bool) (lead : List (List Char)) : Prop where
  slash : ∀ step ∈ lead, '/' ∉ step
  /-- Without the root in front, no slash comes first. -/
  head : rooted = false → lead.head? ≠ some []
  /-- No idle step comes last. -/
  trimmed : trimSteps rooted lead.zipIdx = lead.zipIdx

/-- The text of steps, behind the root if they start there. -/
def textOf (rooted : Bool) (steps : List (List Char)) : List Char :=
  (if rooted then ['/'] else []) ++ ['/'].intercalate steps

theorem trimSteps_eq_rdropWhile (rooted : Bool) (steps : List (List Char × ℕ)) :
    trimSteps rooted steps = steps.rdropWhile (isIdle rooted) := rfl

theorem isPrefix_trimSteps (rooted : Bool) (steps : List (List Char × ℕ)) :
    trimSteps rooted steps <+: steps :=
  List.rdropWhile_prefix ..

/-- What is left at the end is not idle. -/
theorem isIdle_of_trimSteps {steps before : List (List Char × ℕ)} {last : List Char × ℕ}
    (h : trimSteps rooted steps = before ++ [last]) : isIdle rooted last = false := by
  rw [trimSteps_eq_rdropWhile] at h
  have hnot := List.rdropWhile_last_not (isIdle rooted) steps (by simp [h])
  simpa [h] using hnot

/-- Steps behind which a name stands are not trimmed. -/
theorem trimSteps_concat (h : IsName step) (steps : List (List Char)) :
    trimSteps rooted (steps ++ [step]).zipIdx = steps.zipIdx ++ [(step, steps.length)] := by
  rw [List.zipIdx_append, List.zipIdx_singleton, Nat.zero_add, trimSteps_eq_rdropWhile]
  exact List.rdropWhile_concat_neg _ _ _ (by simp [h.isIdle])

/-- The last part of a path is that of its last step that is not idle. -/
theorem getLast?_parts (p : Path) : p.parts.getLast?
    = ((trimSteps p.isRooted p.steps.zipIdx).getLast?.map fun s => partOf s.1).or
        (if p.isRooted then some .root else none) := by
  have hlast : (p.steps.zipIdx.filter (!isIdle p.isRooted ·)).getLast?
      = (trimSteps p.isRooted p.steps.zipIdx).getLast? := by
    rw [trimSteps, List.getLast?_reverse, ← List.head?_reverse, ← List.filter_reverse,
      List.head?_filter, List.find?_eq_head?_dropWhile_not]
    simp
  rw [parts, List.getLast?_append, List.getLast?_map, hlast]
  cases p.isRooted <;> rfl

/-- A path leads to a file name if its last step, idle ones apart, is a name. -/
theorem exists_trimSteps_eq_concat {base : String} (h : p.fileName? = some base) :
    IsName base.toList ∧ ∃ before k,
      trimSteps p.isRooted p.steps.zipIdx = before ++ [(base.toList, k)] := by
  rw [fileName?, getLast?_parts] at h
  rcases List.eq_nil_or_concat' (trimSteps p.isRooted p.steps.zipIdx)
    with hnil | ⟨before, ⟨step, k⟩, hlast⟩
  · rw [hnil] at h
    cases hrooted : p.isRooted <;> simp [hrooted] at h
  · rw [hlast, List.getLast?_concat, Option.map_some, Option.some_or] at h
    have hpart : partOf step = .name base := by
      cases hpart : partOf step <;> simp_all
    obtain ⟨hhere, hup, rfl⟩ := partOf_eq_name_iff.mp hpart
    have hmem : (step, k) ∈ p.steps.zipIdx :=
      (isPrefix_trimSteps p.isRooted p.steps.zipIdx).subset (by simp [hlast])
    have hslash := slash_notMem_steps p step (List.fst_mem_of_mem_zipIdx hmem)
    have hidle := isIdle_of_trimSteps hlast
    rw [String.toList_ofList]
    refine ⟨⟨?_, hslash, hhere, hup⟩, before, k, hlast⟩
    rintro rfl
    simp [isIdle] at hidle

/-- The first steps of a path, without the idle ones at the end, can stand in front of a name. -/
theorem lead_trimSteps {before : List (List Char × ℕ)} (htext : p.text.toList ≠ [])
    (h : before <+: p.steps.zipIdx) :
    Lead p.isRooted ((trimSteps p.isRooted before).map Prod.fst) := by
  have hprefix : trimSteps p.isRooted before <+: p.steps.zipIdx :=
    (isPrefix_trimSteps ..).trans h
  have hsteps : (trimSteps p.isRooted before).map Prod.fst <+: p.steps := by
    have hmap := hprefix.map Prod.fst
    rwa [List.zipIdx_map_fst] at hmap
  have hzip : ((trimSteps p.isRooted before).map Prod.fst).zipIdx
      = trimSteps p.isRooted before := by
    obtain ⟨rest, hrest⟩ := hprefix
    obtain ⟨xs, ys, -, hxs, -⟩ := List.zipIdx_eq_append_iff.mp hrest.symm
    rw [hxs, List.zipIdx_map_fst]
  refine ⟨?_, ?_, ?_⟩
  · intro step hstep
    exact slash_notMem_steps p step (hsteps.subset hstep)
  · intro hrooted hhead
    refine head?_steps_ne hrooted htext ?_
    obtain ⟨rest, hrest⟩ := hsteps
    rw [← hrest, List.head?_append, hhead, Option.some_or]
  · rw [hzip]
    exact List.rdropWhile_idempotent _ _

/-- **What stands in front of a file name is the parent.** -/
theorem exists_lead {base : String} (h : p.fileName? = some base) : ∃ lead, Lead p.isRooted lead
    ∧ p.parent? = some ⟨String.ofList (textOf p.isRooted lead)⟩ := by
  obtain ⟨-, before, k, hlast⟩ := exists_trimSteps_eq_concat h
  have hprefix : before <+: p.steps.zipIdx := by
    have htrim := isPrefix_trimSteps p.isRooted p.steps.zipIdx
    rw [hlast] at htrim
    exact (List.prefix_append ..).trans htrim
  have htext : p.text.toList ≠ [] := by
    intro hnil
    have hparts : p.parts = [] := by simp [parts, steps, isRooted, hnil, isIdle]
    simp [fileName?, hparts] at h
  refine ⟨_, lead_trimSteps htext hprefix, ?_⟩
  rw [parent?, fileName?_eq_some_iff.mp h]
  simp only [hlast, List.dropLast_concat]
  cases p.isRooted <;> rfl

/-! ## Another file name -/

theorem intercalate_concat {lead : List (List Char)} (h : lead ≠ []) (step : List Char) :
    ['/'].intercalate (lead ++ [step]) = ['/'].intercalate lead ++ '/' :: step := by
  induction lead with
  | nil => exact absurd rfl h
  | cons first rest ih =>
      rcases eq_or_ne rest [] with rfl | hne
      · simp
      · rw [List.cons_append, List.intercalate_cons_of_ne_nil (by simp), ih hne,
          List.intercalate_cons_of_ne_nil hne]
        simp

/-- A lead that is not empty ends in a character other than a slash. -/
theorem Lead.getLast?_intercalate {lead : List (List Char)} (h : Lead rooted lead)
    (hne : lead ≠ []) : ∃ c, (['/'].intercalate lead).getLast? = some c ∧ c ≠ '/' := by
  obtain ⟨before, last, rfl⟩ := (List.eq_nil_or_concat' lead).resolve_left hne
  have hlast : last ≠ [] := by
    rintro rfl
    have htrimmed := h.trimmed
    rw [trimSteps_eq_rdropWhile, List.rdropWhile_eq_self_iff] at htrimmed
    have hidle := htrimmed (by simp)
    simp [List.zipIdx_append, isIdle] at hidle
  have hslash : '/' ∉ last := h.slash last (by simp)
  obtain ⟨init, c, rfl⟩ := (List.eq_nil_or_concat' last).resolve_left hlast
  refine ⟨c, ?_, fun hc => hslash (by simp [hc])⟩
  rcases eq_or_ne before [] with rfl | hbefore
  · simp
  · rw [intercalate_concat hbefore, List.getLast?_append, ← List.cons_append,
      List.getLast?_concat, Option.some_or]

/-- **A name is put behind a lead.** -/
theorem append_textOf {lead : List (List Char)} (h : Lead rooted lead) (name : String) :
    Path.append ⟨String.ofList (textOf rooted lead)⟩ name
      = ⟨String.ofList (textOf rooted (lead ++ [name.toList]))⟩ := by
  have hempty : (String.ofList (textOf rooted lead)).isEmpty = (textOf rooted lead).isEmpty := by
    rw [Bool.eq_iff_iff]
    simp
  rw [append, hempty, String.toList_ofList]
  rcases eq_or_ne lead [] with rfl | hne
  · cases rooted <;> simp [textOf]
  · obtain ⟨c, hlast, hc⟩ := h.getLast?_intercalate hne
    have hnil : ['/'].intercalate lead ≠ [] := by
      intro hnil
      rw [hnil] at hlast
      cases hlast
    have hlast : (textOf rooted lead).getLast? = some c := by
      rw [textOf, List.getLast?_append, hlast, Option.some_or]
    rw [hlast, if_neg (by simp [textOf, hnil, hc])]
    simp [textOf, intercalate_concat hne, String.ext_iff]

variable {lead : List (List Char)}

theorem Lead.slash_concat (h : Lead rooted lead) (hname : IsName step) :
    ∀ s ∈ lead ++ [step], '/' ∉ s := by
  simpa [or_imp, forall_and] using ⟨h.slash, hname.slash⟩

theorem isRooted_textOf (h : Lead rooted lead) (hname : IsName step) :
    isRooted ⟨String.ofList (textOf rooted (lead ++ [step]))⟩ = rooted := by
  rw [isRooted, String.toList_ofList, textOf]
  cases rooted with
  | true => simp
  | false =>
      have hslash := h.slash_concat hname
      obtain ⟨first, rest, heq⟩ := List.exists_cons_of_ne_nil (l := lead ++ [step]) (by simp)
      have hfirst : first ≠ [] := by
        rintro rfl
        cases lead with
        | nil => exact hname.ne_nil (List.cons.inj heq).1
        | cons _ _ => exact h.head rfl (congrArg some (List.cons.inj heq).1)
      obtain ⟨c, cs, rfl⟩ := List.exists_cons_of_ne_nil hfirst
      have hc : '/' ∉ c :: cs := hslash _ (by rw [heq]; simp)
      rw [List.mem_cons, not_or] at hc
      rw [heq, List.intercalate_cons_cons_left]
      simpa using Ne.symm hc.1

theorem steps_textOf (h : Lead rooted lead) (hname : IsName step) :
    steps ⟨String.ofList (textOf rooted (lead ++ [step]))⟩ = lead ++ [step] := by
  have hsplit := List.splitOn_intercalate '/' (h.slash_concat hname) (by simp)
  rw [steps, isRooted_textOf h hname, String.toList_ofList, textOf]
  cases rooted with
  | true => simp [List.splitOn_cons_eq_if_modifyHead, hsplit]
  | false => simpa using hsplit

/-- A name that is put behind a path becomes the last step. -/
theorem exists_steps_append (p : Path) {name : String} (hname : IsName name.toList) :
    ∃ before, (p.append name).steps = before ++ [name.toList] := by
  have hsingle : name.toList.splitOn '/' = [name.toList] := List.splitOn_eq_singleton hname.slash
  have htext : (p.append name).text.toList = name.toList
      ∨ ∃ front, (p.append name).text.toList = front ++ '/' :: name.toList := by
    rw [append]
    split_ifs with hend
    · rcases List.eq_nil_or_concat' p.text.toList with hnil | ⟨front, last, hlast⟩
      · exact Or.inl (by simp [hnil])
      · have hslash : last = '/' := by
          simpa [hlast, ← String.toList_eq_nil_iff] using hend
        exact Or.inr ⟨front, by simp [hlast, hslash]⟩
    · exact Or.inr ⟨p.text.toList, by simp⟩
  rw [steps, isRooted]
  rcases htext with htext | ⟨front, htext⟩
  · have hhead : (name.toList.head? == some '/') = false := by
      rw [beq_eq_false_iff_ne]
      exact fun h => hname.slash (List.mem_of_head? h)
    simp only [htext, hhead, Bool.false_eq_true, if_false, hsingle]
    exact ⟨[], rfl⟩
  · obtain ⟨first, rest, hfront⟩ := List.exists_cons_of_ne_nil (List.splitOn_ne_nil '/' front)
    simp only [htext, List.splitOn_append_cons_self, hsingle, hfront]
    split_ifs
    · exact ⟨rest, rfl⟩
    · exact ⟨first :: rest, rfl⟩

theorem fileName?_append (p : Path) {name : String} (hname : IsName name.toList) :
    (p.append name).fileName? = some name := by
  obtain ⟨before, hsteps⟩ := p.exists_steps_append hname
  rw [fileName?_eq_some_iff, getLast?_parts, hsteps, trimSteps_concat hname, List.getLast?_concat,
    Option.map_some, Option.some_or, hname.partOf, String.ofList_toList]

/-- **The file name of a path can be replaced by another one**, or one can be given to it. -/
theorem fileName?_withFileName (p : Path) {name : String} (hname : IsName name.toList) :
    (p.withFileName name).fileName? = some name := by
  rw [withFileName]
  split
  · exact fileName?_append _ hname
  · exact fileName?_append _ hname

/-- **Another file name leaves the parent of a path as it is.** -/
theorem parent?_withFileName {base name : String} (h : p.fileName? = some base)
    (hname : IsName name.toList) : (p.withFileName name).parent? = p.parent? := by
  obtain ⟨lead, hlead, hparent⟩ := exists_lead h
  have hpath : p.withFileName name
      = ⟨String.ofList (textOf p.isRooted (lead ++ [name.toList]))⟩ := by
    rw [withFileName, h, hparent]
    exact append_textOf hlead name
  rw [parent?, fileName?_eq_some_iff.mp (p.fileName?_withFileName hname)]
  simp only [hpath, isRooted_textOf hlead hname, steps_textOf hlead hname, trimSteps_concat hname,
    List.dropLast_concat, hlead.trimmed, List.zipIdx_map_fst, hparent]
  cases p.isRooted <;> rfl

end Path

/-! ## Load addresses in file names -/

/-- A name is split at its last dot or not at all. -/
theorem Path.splitName_spec (name : String) : splitName name = (name, none)
    ∨ ∃ stem extension : List Char, name.toList = stem ++ '.' :: extension
      ∧ splitName name = (String.ofList stem, some (String.ofList extension)) := by
  have hsplit := List.takeWhile_append_dropWhile (p := (· != '.')) (l := name.toList.reverse)
  have hdrop : name.toList.reverse.drop (name.toList.reverse.takeWhile (· != '.')).length
      = name.toList.reverse.dropWhile (· != '.') := by
    conv_lhs =>
      arg 2
      rw [← hsplit]
    exact List.drop_left
  have hdot := List.head?_dropWhile_not (· != '.') name.toList.reverse
  rw [splitName, hdrop]
  rcases hrest : name.toList.reverse.dropWhile (· != '.') with _ | ⟨dot, _ | ⟨c, before⟩⟩
  · exact Or.inl rfl
  · exact Or.inl rfl
  · rw [hrest] at hsplit hdot
    obtain rfl : dot = '.' := by simpa using hdot
    refine Or.inr ⟨(c :: before).reverse, _, ?_, rfl⟩
    simpa using (congrArg List.reverse hsplit).symm

variable {p : Path} {base : String} {address other : UInt16}

/-- The name that the address of a segment is put into. -/
def wholeName (p : Path) : String :=
  p.fileName?.getD "anim"

open Text in
/-- **The name of a segment's file is the whole name with the address put in.** -/
theorem toList_segmentFileName (p : Path) : ∃ stem tail : List Char,
    (wholeName p).toList = stem ++ tail ∧ ∀ address, (segmentFileName p address).toList
      = stem ++ '-' :: (hexLower 4 address.toNat).toList ++ tail := by
  cases h : p.fileName? with
  | none =>
      refine ⟨"anim".toList, [], by simp [wholeName, h], fun address => ?_⟩
      simp [segmentFileName, Path.stem?, Path.extension?, h, toString]
  | some base =>
      rcases Path.splitName_spec base with hsplit | ⟨stem, extension, hbase, hsplit⟩
      · refine ⟨base.toList, [], by simp [wholeName, h], fun address => ?_⟩
        simp [segmentFileName, Path.stem?, Path.extension?, h, hsplit, toString]
      · refine ⟨stem, '.' :: extension, by simp [wholeName, h, hbase], fun address => ?_⟩
        simp [segmentFileName, Path.stem?, Path.extension?, h, hsplit, toString]

theorem length_segmentFileName (p : Path) (address : UInt16) :
    (wholeName p).toList.length + 5 ≤ (segmentFileName p address).toList.length := by
  obtain ⟨stem, tail, hwhole, hname⟩ := toList_segmentFileName p
  have hhex := Text.le_length_hexLower 4 address.toNat
  rw [hwhole, hname address]
  simp only [List.length_append, List.length_cons]
  omega

theorem slash_notMem_wholeName (p : Path) : '/' ∉ (wholeName p).toList := by
  cases h : p.fileName? with
  | none => simp [wholeName, h]
  | some base =>
      rw [wholeName, h]
      exact (Path.exists_trimSteps_eq_concat h).1.slash

theorem isName_segmentFileName (p : Path) (address : UInt16) :
    Path.IsName (segmentFileName p address).toList := by
  have hlength := length_segmentFileName p address
  refine ⟨?_, ?_, ?_, ?_⟩
  · intro hnil
    simp [hnil] at hlength
  · obtain ⟨stem, tail, hwhole, hname⟩ := toList_segmentFileName p
    have hslash := slash_notMem_wholeName p
    have hhex := Text.slash_notMem_hexLower 4 address.toNat
    rw [hwhole] at hslash
    rw [hname address]
    simp_all
  · intro hhere
    simp [hhere] at hlength
  · intro hup
    simp [hup] at hlength

theorem segmentFileName_ne (h : p.fileName? = some base) : segmentFileName p address ≠ base := by
  intro heq
  have hlength := length_segmentFileName p address
  rw [heq, wholeName, h] at hlength
  simp only [Option.getD_some] at hlength
  omega

/-- **Different addresses lead to different names.** -/
theorem segmentFileName_injective (heq : segmentFileName p address = segmentFileName p other) :
    address = other := by
  obtain ⟨stem, tail, -, hname⟩ := toList_segmentFileName p
  have hlist := congrArg String.toList heq
  rw [hname, hname] at hlist
  have hhex := List.append_cancel_right hlist
  rw [List.append_cancel_left_eq, List.cons.injEq] at hhex
  exact UInt16.toNat_inj.mp (Text.hexLower_injective (String.toList_inj.mp hhex.2))

/-! ## Where segments are written -/

/-- **Each segment is written under a name of its own.** -/
theorem nodup_fileNames (p : Path) {segments : List Segment}
    (haddresses : (segments.map Segment.address).Nodup) :
    ((segmentPaths p segments).map Path.fileName?).Nodup := by
  rw [segmentPaths]
  split_ifs
  · simp
  · have hnames :
        Path.fileName? ∘ (fun s : Segment => p.withFileName (segmentFileName p s.address))
          = (fun address => some (segmentFileName p address)) ∘ Segment.address := by
      funext s
      exact p.fileName?_withFileName (isName_segmentFileName p s.address)
    rw [List.map_map, hnames, ← List.map_map]
    exact haddresses.map fun a b heq => segmentFileName_injective (Option.some.inj heq)

/-- **All segments are written into the directory of the path**, and none of several under the name
of the path. -/
theorem segmentPaths_spec (h : p.fileName? = some base) (segments : List Segment) :
    (∀ q ∈ segmentPaths p segments, q.parent? = p.parent?)
      ∧ (2 ≤ segments.length → ∀ q ∈ segmentPaths p segments, q.fileName? ≠ p.fileName?) := by
  rw [segmentPaths]
  split_ifs with hsegments
  · simp [hsegments]
  · refine ⟨?_, ?_⟩
    · rw [List.forall_mem_map]
      intro s _
      exact Path.parent?_withFileName h (isName_segmentFileName p s.address)
    · intro _
      rw [List.forall_mem_map]
      intro s _
      rw [p.fileName?_withFileName (isName_segmentFileName p s.address), h]
      exact fun heq => segmentFileName_ne h (Option.some.inj heq)

end DeltaScript
