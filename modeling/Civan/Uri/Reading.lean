import Civan.Uri.Model

/-!
# The readings of a URI with an authority

How the machine goes through the parts of `scheme://userinfo@host:port/path?query#fragment`:
which threads are alive, and which actions are performed at which byte.  Inside a part
there are no actions.  At the bytes between the parts the threads of one reading go on and
those of the others die; up to an `@`, the userinfo and the host are read together.

The names say where a thread is: `atHost` has the host before it, `afterHost` stands
behind the bytes of a host that may still go on.
-/

namespace Civan
namespace UriParser

open ActionGrammar

section Threads

/-- `("?" query)? ("#" fragment)?`. -/
def tail : Rule :=
  .seq queryPart fragmentPart

def atColon : Thread UInt8 UriAction :=
  [.seq (byte 58) (.seq hierPart tail)]

def afterScheme : Thread UInt8 UriAction :=
  .leave .saveScheme .eps :: atColon

/-- A first segment of a relative path, which a scheme may be until its colon. -/
def afterSegment : Thread UInt8 UriAction :=
  [segments, tail]

def atHierPart : Thread UInt8 UriAction :=
  [.seq hierPart tail]

def atSlash : Thread UInt8 UriAction :=
  [byte 47, .seq authority markedPath, tail]

def atAbsolute : Thread UInt8 UriAction :=
  [opt (.seq (plus pchar) segments), tail]

def atAuthority : Thread UInt8 UriAction :=
  [.seq authority markedPath, tail]

def afterUserinfo : Thread UInt8 UriAction :=
  [.leave .saveUserinfo .eps, byte 64, .seq markedHost portPart, markedPath, tail]

def atHost : Thread UInt8 UriAction :=
  [.seq markedHost portPart, markedPath, tail]

def afterHost : Thread UInt8 UriAction :=
  [.leave .saveHost .eps, portPart, markedPath, tail]

def atPort : Thread UInt8 UriAction :=
  [markedPort, markedPath, tail]

def afterPort : Thread UInt8 UriAction :=
  [.leave .savePort .eps, markedPath, tail]

def afterPath : Thread UInt8 UriAction :=
  [.leave .savePath .eps, tail]

/-- Behind the first slash of a path. -/
def atPath : Thread UInt8 UriAction :=
  segment :: segments :: afterPath

def afterQuery : Thread UInt8 UriAction :=
  [.leave .saveQuery .eps, fragmentPart]

def afterFragment : Thread UInt8 UriAction :=
  [.leave .saveFragment .eps]

end Threads

section Delimiters

theorem moves_afterScheme_colon : moves afterScheme 58 = [([.saveScheme], atHierPart)] :=
  rfl

theorem moves_atHierPart_slash : moves atHierPart 47 = [([], atSlash), ([], atAbsolute)] :=
  rfl

theorem moves_atSlash_slash : moves atSlash 47 = [([], atAuthority)] :=
  rfl

theorem moves_atAbsolute_slash : moves atAbsolute 47 = [] :=
  rfl

theorem moves_atAuthority_colon :
    moves atAuthority 58 =
      [([.markh], userinfo :: afterUserinfo), ([.markh, .markh, .saveHost], atPort)] :=
  rfl

theorem moves_afterUserinfo_at : moves afterUserinfo 64 = [([.saveUserinfo], atHost)] :=
  rfl

theorem moves_afterHost_colon : moves afterHost 58 = [([.saveHost], atPort)] :=
  rfl

theorem moves_afterHost_slash :
    moves afterHost 47 = [([.saveHost, .markh], atPath), ([.saveHost, .markh], atPath)] :=
  rfl

theorem moves_afterPort_slash :
    moves afterPort 47 = [([.savePort, .markh], atPath), ([.savePort, .markh], atPath)] :=
  rfl

end Delimiters

section Bytes

variable {c : UInt8}

/-- No `:`, `/`, `?` or `#`. -/
def SchemeByte (c : UInt8) : Prop :=
  c ∉ ([58, 47, 63, 35] : List UInt8)

/-- No `@`, `/`, `?`, `#` or `[`. -/
def UserByte (c : UInt8) : Prop :=
  c ∉ ([64, 47, 63, 35, 91] : List UInt8)

/-- No `:` either. -/
def HostByte (c : UInt8) : Prop :=
  c ∉ ([58, 64, 47, 63, 35, 91] : List UInt8)

/-- No `?` or `#`. -/
def PathByte (c : UInt8) : Prop :=
  c ∉ ([63, 35] : List UInt8)

/-- No `#`. -/
def QueryByte (c : UInt8) : Prop :=
  c ∉ ([35] : List UInt8)

theorem steps_byte_of_ne {b : UInt8} (h : c ≠ b) : (byte b).steps c = [] := by
  rw [byte, Grammar.steps, if_neg]
  rwa [beq_iff_eq]

theorem steps_led_of_ne {b : UInt8} (h : c ≠ b) (g : Rule) :
    (Grammar.seq (byte b) g).steps c = [] := by
  rw [Grammar.steps, steps_byte_of_ne h]
  rfl

/-- An optional part is passed over at any byte but its first. -/
theorem moves_opt_led {b : UInt8} (h : c ≠ b) (g : Rule) (k : Thread UInt8 UriAction) :
    moves (opt (.seq (byte b) g) :: k) c = moves k c := by
  rw [moves, opt, Grammar.steps, steps_led_of_ne h]
  simp [Grammar.steps, Grammar.nullable, Grammar.skip, byte]

theorem steps_segments_of_ne (h : c ≠ 47) : segments.steps c = [] := by
  rw [segments, Grammar.steps, steps_led_of_ne h]
  rfl

theorem moves_segments (h : c ≠ 47) (k : Thread UInt8 UriAction) :
    moves (segments :: k) c = moves k c := by
  rw [moves, steps_segments_of_ne h]
  simp [segments, Grammar.nullable, Grammar.skip]

theorem moves_fragmentPart (hc : c ∉ ([35] : List UInt8)) : moves [fragmentPart] c = [] :=
  moves_opt_led (List.ne_of_not_mem_cons hc) fragment []

theorem moves_tail (hc : c ∉ ([63, 35] : List UInt8)) : moves [tail] c = [] := by
  rw [tail, moves_seq, queryPart, moves_opt_led (List.ne_of_not_mem_cons hc),
    moves_fragmentPart (List.not_mem_of_not_mem_cons hc)]

theorem moves_afterSegment (hc : c ∉ ([47, 63, 35] : List UInt8)) :
    moves afterSegment c = [] := by
  rw [afterSegment, moves_segments (List.ne_of_not_mem_cons hc),
    moves_tail (List.not_mem_of_not_mem_cons hc)]

theorem steps_pathAbempty_of_ne (h : c ≠ 47) : pathAbempty.steps c = [] := by
  rw [pathAbempty, Grammar.steps, steps_segments_of_ne h, opt, Grammar.steps, steps_led_of_ne h]
  rfl

theorem moves_markedPath (hc : c ∉ ([47, 63, 35] : List UInt8)) :
    moves [markedPath, tail] c = [] := by
  rw [moves_cons_of_eq_nil (moves_tail (List.not_mem_of_not_mem_cons hc)), markedPath,
    Grammar.steps, Grammar.steps, steps_pathAbempty_of_ne (List.ne_of_not_mem_cons hc)]
  rfl

theorem moves_afterPort (hc : c ∉ ([47, 63, 35] : List UInt8)) : moves afterPort c = [] := by
  rw [afterPort, moves_leave_eps, moves_markedPath hc, List.map_nil]

theorem moves_afterHost (hc : c ∉ ([58, 47, 63, 35] : List UInt8)) :
    moves afterHost c = [] := by
  rw [afterHost, moves_leave_eps, portPart, moves_opt_led (List.ne_of_not_mem_cons hc),
    moves_markedPath (List.not_mem_of_not_mem_cons hc), List.map_nil]

theorem moves_afterUserinfo (hc : c ≠ 64) : moves afterUserinfo c = [] := by
  rw [afterUserinfo, moves_leave_eps, moves, steps_byte_of_ne hc]
  rfl

theorem moves_atColon (hc : c ≠ 58) : moves atColon c = [] := by
  rw [atColon, moves, steps_led_of_ne hc]
  rfl

theorem moves_afterScheme (hc : c ≠ 58) : moves afterScheme c = [] := by
  rw [afterScheme, moves_leave_eps, moves_atColon hc, List.map_nil]

end Bytes

section Scheme

variable {c : UInt8} {ts : List (Thread UInt8 UriAction)}

/-- The threads while a scheme is read: it may be the first segment of a relative path. -/
def InScheme (t : Thread UInt8 UriAction) : Prop :=
  Inside SchemeByte afterScheme t ∨ Inside SchemeByte afterSegment t

theorem plain_schemeText : schemeText.Plain SchemeByte :=
  plain_of_avoids rfl

theorem steps_relativePart (h : c ≠ 47) : relativePart.steps c = pathNoscheme.steps c := by
  have hslashes (g : Rule) : (Grammar.seq slashes g).steps c = [] := by
    rw [Grammar.steps, slashes, steps_led_of_ne h]
    rfl
  change (Grammar.seq slashes _).steps c ++
    (pathAbsolute.steps c ++ (pathNoscheme.steps c ++ [])) = _
  rw [hslashes, pathAbsolute, steps_led_of_ne h, List.append_nil]
  rfl

theorem moves_relativeRef (hc : c ∉ ([47, 63, 35] : List UInt8)) :
    moves [relativeRef] c = moves (plus pcharNc :: afterSegment) c := by
  have htail := moves_tail (List.not_mem_of_not_mem_cons hc)
  change moves [.seq relativePart tail] c = moves (plus pcharNc :: segments :: [tail]) c
  rw [← moves_seq, ← pathNoscheme, moves_seq, moves_cons_of_eq_nil htail,
    moves_cons_of_eq_nil htail, steps_relativePart (List.ne_of_not_mem_cons hc)]

theorem moves_uriReference (c : UInt8) :
    moves [uriReference] c = moves (scheme :: atColon) c ++ moves [relativeRef] c := by
  rw [atColon, ← moves_seq]
  change moves [.alt uriRule relativeRef] c = moves [uriRule] c ++ moves [relativeRef] c
  simp [moves, Grammar.steps]

/-- The first byte marks a scheme. -/
theorem moves_start (hc : SchemeByte c) :
    ∀ m ∈ moves [uriReference] c, (m.1 = [.marku] ∨ m.1 = []) ∧ InScheme m.2 := by
  have hcolon := List.ne_of_not_mem_cons hc
  have hrest := List.not_mem_of_not_mem_cons hc
  intro m hm
  rw [moves_uriReference, List.mem_append] at hm
  cases hm with
  | inl hscheme =>
    obtain ⟨hacts, hinside⟩ :=
      moves_token plain_schemeText (moves_atColon hcolon) m hscheme
    exact ⟨Or.inl hacts, Or.inl hinside⟩
  | inr hrelative =>
    rw [moves_relativeRef hrest] at hrelative
    have hsegment : Inside SchemeByte afterSegment (plus pcharNc :: afterSegment) :=
      inside_singleton (plain_of_avoids rfl) _
    obtain ⟨hacts, hinside⟩ := hsegment.moves (moves_afterSegment hrest) m hrelative
    exact ⟨Or.inr hacts, Or.inr hinside⟩

theorem InScheme.silent {t : Thread UInt8 UriAction} (hc : SchemeByte c) (h : InScheme t) :
    Silent InScheme c t := by
  intro m hm
  cases h with
  | inl hscheme =>
    obtain ⟨hacts, hinside⟩ :=
      hscheme.moves (moves_afterScheme (List.ne_of_not_mem_cons hc)) m hm
    exact ⟨hacts, Or.inl hinside⟩
  | inr hsegment =>
    obtain ⟨hacts, hinside⟩ :=
      hsegment.moves (moves_afterSegment (List.not_mem_of_not_mem_cons hc)) m hm
    exact ⟨hacts, Or.inr hinside⟩

/-- Over a scheme: a mark at its first byte. -/
theorem read_scheme {w : List UInt8} (hw : w ∈ schemeText.lang) :
    events 0 start w = [(0, .marku)] ∧ (∀ t ∈ read start w, InScheme t) ∧
      Live SchemeByte afterScheme [] (read start w) := by
  have hclass := forall_of_mem_lang plain_schemeText hw
  cases w with
  | nil => exact absurd ((nil_mem_lang schemeText).mp hw) (by decide)
  | cons c w =>
    have hmoves := moves_start (hclass c List.mem_cons_self)
    obtain ⟨m, hm, hacts, hlive⟩ := exists_moves_token (a := UriAction.marku)
      (b := .saveScheme) (k := atColon) plain_schemeText hw
    have hmem : m ∈ moves [uriReference] c := by
      rw [moves_uriReference, List.mem_append]
      exact Or.inl hm
    have hstart : Just [uriReference] start :=
      ⟨List.mem_singleton.mpr rfl, fun t ht => List.mem_singleton.mp ht⟩
    have hfired : fired start c = [.marku] := by
      rw [hstart.cross.1]
      exact eraseDups_flatMap (l := [UriAction.marku]) (fun m hm => (hmoves m hm).1.symm)
        ⟨m, hmem, hacts⟩
    obtain ⟨hevents, hread⟩ := hstart.read (fun m hm => (hmoves m hm).2)
      (fun d hd t ht => ht.silent (hclass d (List.mem_cons_of_mem c hd))) 0
    rw [hfired] at hevents
    refine ⟨hevents, hread, hstart.live ⟨m, hmem, ?_⟩⟩
    rw [List.append_nil]
    exact hlive

/-- Over `://`: the scheme is saved, and an authority is next. -/
theorem read_slashes (hts : ∀ t ∈ ts, InScheme t)
    (hlive : Live SchemeByte afterScheme [] ts) (p : ℕ) :
    events p ts [58, 47, 47] = [(p, .saveScheme)] ∧ Just atAuthority (read ts [58, 47, 47]) := by
  have hcolon : ¬ SchemeByte 58 := not_not.mpr List.mem_cons_self
  -- the relative path ends at the colon
  obtain ⟨hfired, hhier⟩ := cross_just (l := [UriAction.saveScheme]) (t := atHierPart)
    (fun t ht => (hts t ht).symm.imp_left fun hsegment => hsegment.dies hcolon rfl)
    hlive hcolon (by simp [moves_afterScheme_colon]) (by simp [moves_afterScheme_colon])
  obtain ⟨hfired', hnext, hmem⟩ := hhier.cross (c := 47)
  rw [moves_atHierPart_slash] at hfired' hnext hmem
  -- an absolute path has no second slash
  have hall : ∀ t ∈ next (next ts 58) 47,
      Silent (fun _ => False) 47 t ∨ moves t 47 = [([], atAuthority)] := by
    intro t ht
    obtain hfalse | ⟨m, hm, rfl⟩ := hnext t ht
    · exact hfalse.elim
    · simp only [List.mem_cons, List.not_mem_nil, or_false] at hm
      obtain rfl | rfl := hm
      · exact Or.inr moves_atSlash_slash
      · exact Or.inl (Silent.of_moves_eq_nil moves_atAbsolute_slash)
  obtain ⟨hfired'', hnext', hmem'⟩ :=
    cross hall ⟨atSlash, hmem _ List.mem_cons_self, moves_atSlash_slash⟩
  refine ⟨?_, just_of_moves (by simp) (List.cons_ne_nil _ _) hnext' hmem'⟩
  rw [events, events, events, events, hfired, hfired', hfired'']
  rfl

end Scheme

section Authority

variable {c : UInt8} {ts : List (Thread UInt8 UriAction)}

theorem HostByte.userByte (hc : HostByte c) : UserByte c :=
  List.not_mem_of_not_mem_cons hc

theorem UserByte.moves_afterPort (hc : UserByte c) : moves afterPort c = [] :=
  UriParser.moves_afterPort (by simp_all [UserByte])

theorem HostByte.moves_afterHost (hc : HostByte c) : moves afterHost c = [] :=
  UriParser.moves_afterHost (by simp_all [HostByte])

theorem plain_userinfo : userinfo.Plain UserByte :=
  plain_of_avoids rfl

theorem plain_regName : regName.Plain HostByte :=
  plain_of_avoids rfl

theorem nullable_byte (b : UInt8) : (byte b).nullable = false :=
  rfl

theorem steps_host (h : c ≠ 91) : host.steps c = (Grammar.alt ipv4Address regName).steps c := by
  change ipLiteral.steps c ++ _ = _
  rw [show ipLiteral.steps c = [] from steps_led_of_ne h _]
  rfl

theorem authority_eq :
    authority = .enter .markh (.seq
      (opt (.seq (.leave .saveUserinfo userinfo) (byte 64))) (.seq markedHost portPart)) :=
  rfl

/-- The first byte of an authority is one of a userinfo and one of a host. -/
theorem moves_atAuthority (hc : HostByte c) :
    moves atAuthority c =
      (userinfo.steps c).map (fun m => (.markh :: m.1, m.2 ++ afterUserinfo)) ++
        (host.steps c).map (fun m => (.markh :: .markh :: m.1, m.2 ++ afterHost)) := by
  have h58 : c ≠ 58 := List.ne_of_not_mem_cons hc
  have h64 : c ≠ 64 := List.ne_of_not_mem_cons hc.userByte
  have hpath : c ∉ ([47, 63, 35] : List UInt8) := by simp_all [HostByte]
  rw [atAuthority, moves_seq, moves_cons_of_eq_nil (moves_markedPath hpath), authority_eq]
  simp [Grammar.steps, Grammar.nullable, Grammar.skip, steps_byte_of_ne h58,
    steps_byte_of_ne h64, nullable_byte, portPart, opt, markedHost, afterUserinfo, afterHost,
    Function.comp_def]

/-- Threads that read a userinfo or a host. -/
def InUserOrHost (t : Thread UInt8 UriAction) : Prop :=
  Inside UserByte afterUserinfo t ∨ Inside HostByte afterHost t

/-- Threads that read a userinfo or, behind a colon, a port. -/
def InUserOrPort (t : Thread UInt8 UriAction) : Prop :=
  Inside UserByte afterUserinfo t ∨ Inside HostByte afterPort t

theorem inside_userinfo_silent {t : Thread UInt8 UriAction}
    (hc : UserByte c) (h : Inside UserByte afterUserinfo t) :
    Silent (Inside UserByte afterUserinfo) c t :=
  h.moves (moves_afterUserinfo (List.ne_of_not_mem_cons hc))

theorem InUserOrHost.silent {t : Thread UInt8 UriAction} (hc : HostByte c) (h : InUserOrHost t) :
    Silent InUserOrHost c t := by
  intro m hm
  cases h with
  | inl huser =>
    obtain ⟨hacts, hinside⟩ := inside_userinfo_silent hc.userByte huser m hm
    exact ⟨hacts, Or.inl hinside⟩
  | inr hhost =>
    obtain ⟨hacts, hinside⟩ := hhost.moves hc.moves_afterHost m hm
    exact ⟨hacts, Or.inr hinside⟩

theorem InUserOrPort.silent {t : Thread UInt8 UriAction} (hc : UserByte c) (h : InUserOrPort t) :
    Silent InUserOrPort c t := by
  intro m hm
  cases h with
  | inl huser =>
    obtain ⟨hacts, hinside⟩ := inside_userinfo_silent hc huser m hm
    exact ⟨hacts, Or.inl hinside⟩
  | inr hport =>
    obtain ⟨hacts, hinside⟩ := hport.moves hc.moves_afterPort m hm
    exact ⟨hacts, Or.inr hinside⟩

theorem inside_host (hc : HostByte c) :
    ∀ m ∈ host.steps c, m.1 = [] ∧ Inside HostByte afterHost (m.2 ++ afterHost) := by
  have h91 : c ≠ 91 := by
    rintro rfl
    exact hc (by decide)
  have hplain : (Grammar.alt ipv4Address regName).Plain HostByte := plain_of_avoids rfl
  intro m hm
  rw [steps_host h91] at hm
  obtain ⟨-, hacts, hrest⟩ := steps_of_plain hplain m hm
  exact ⟨hacts, m.2, hrest, rfl⟩

/-- Every reading of the first byte sets the mark and does nothing else. -/
theorem moves_atAuthority_marks (hc : HostByte c) :
    ∀ m ∈ moves atAuthority c, (∀ a ∈ m.1, a = .markh) ∧ .markh ∈ m.1 ∧ InUserOrHost m.2 := by
  intro m hm
  rw [moves_atAuthority hc, List.mem_append] at hm
  cases hm with
  | inl huser =>
    obtain ⟨m, hm, rfl⟩ := List.mem_map.mp huser
    obtain ⟨-, hacts, hplain⟩ := steps_of_plain plain_userinfo m hm
    exact ⟨by simp [hacts], List.mem_cons_self, Or.inl ⟨m.2, hplain, rfl⟩⟩
  | inr hhost =>
    obtain ⟨m, hm, rfl⟩ := List.mem_map.mp hhost
    obtain ⟨hacts, hinside⟩ := inside_host hc m hm
    exact ⟨by simp [hacts], List.mem_cons_self, Or.inr hinside⟩

theorem exists_userinfo_move {w : List UInt8} (hc : HostByte c) (hw : c :: w ∈ userinfo.lang) :
    ∃ m ∈ moves atAuthority c, Live UserByte afterUserinfo w [m.2] := by
  obtain ⟨m, hm, hw⟩ := (cons_mem_lang userinfo c w).mp hw
  refine ⟨(.markh :: m.1, m.2 ++ afterUserinfo), ?_,
    m.2, (steps_of_plain plain_userinfo m hm).2.2, List.mem_singleton.mpr rfl, hw⟩
  rw [moves_atAuthority hc, List.mem_append, List.mem_map]
  exact Or.inl ⟨m, hm, rfl⟩

theorem exists_step_host {w : List UInt8} (hw : c :: w ∈ regName.lang) :
    ∃ m ∈ host.steps c, Live HostByte afterHost w [m.2 ++ afterHost] := by
  obtain ⟨m, hm, hrest⟩ := (cons_mem_lang regName c w).mp hw
  refine ⟨m, ?_, m.2, (steps_of_plain plain_regName m hm).2.2, List.mem_singleton.mpr rfl, hrest⟩
  change m ∈ ipLiteral.steps c ++ (ipv4Address.steps c ++ regName.steps c)
  rw [List.mem_append, List.mem_append]
  exact Or.inr (Or.inr hm)

theorem exists_host_move {w : List UInt8} (hc : HostByte c) (hw : c :: w ∈ regName.lang) :
    ∃ m ∈ moves atAuthority c, Live HostByte afterHost w [m.2] := by
  obtain ⟨m, hm, hlive⟩ := exists_step_host hw
  refine ⟨(.markh :: .markh :: m.1, m.2 ++ afterHost), ?_, hlive⟩
  rw [moves_atAuthority hc, List.mem_append, List.mem_map, List.mem_map]
  exact Or.inr ⟨m, hm, rfl⟩

/-- Over bytes that a userinfo and a host have in common: a mark at the first. -/
theorem read_authority
    {w : List UInt8} (hts : Just atAuthority ts) (hw : ∀ d ∈ c :: w, HostByte d)
    (hmove : moves atAuthority c ≠ []) (p : ℕ) :
    events p ts (c :: w) = [(p, .markh)] ∧ ∀ t ∈ read ts (c :: w), InUserOrHost t := by
  have hmoves := moves_atAuthority_marks (hw c List.mem_cons_self)
  have hfired : fired ts c = [.markh] := by
    rw [hts.cross.1]
    obtain ⟨m, hm⟩ := List.exists_mem_of_ne_nil _ hmove
    apply eraseDups_eq_singleton
    · intro a ha
      obtain ⟨m, hm, ha⟩ := List.mem_flatMap.mp ha
      exact (hmoves m hm).1 a ha
    · exact List.mem_flatMap.mpr ⟨m, hm, (hmoves m hm).2.1⟩
  obtain ⟨hevents, hread⟩ := hts.read (fun m hm => (hmoves m hm).2.2)
    (fun d hd t ht => ht.silent (hw d (List.mem_cons_of_mem c hd))) p
  rw [hfired] at hevents
  exact ⟨hevents, hread⟩

/-- A userinfo has been read, and the other readings have no `@`. -/
def UserinfoRead (ts : List (Thread UInt8 UriAction)) : Prop :=
  (∀ t ∈ ts, Silent (fun _ => False) 64 t ∨ Inside UserByte afterUserinfo t) ∧
    Live UserByte afterUserinfo [] ts

/-- At the `@` the userinfo is saved, and only the host is left. -/
theorem read_at (hts : UserinfoRead ts) (p : ℕ) :
    events p ts [64] = [(p, .saveUserinfo)] ∧ Just atHost (read ts [64]) := by
  have hat : ¬ UserByte 64 := not_not.mpr List.mem_cons_self
  obtain ⟨hfired, hjust⟩ := cross_just (l := [UriAction.saveUserinfo]) (t := atHost)
    hts.1 hts.2 hat (by simp [moves_afterUserinfo_at]) (by simp [moves_afterUserinfo_at])
  refine ⟨?_, hjust⟩
  rw [events, events, hfired]
  rfl

theorem InUserOrHost.at {t : Thread UInt8 UriAction} (h : InUserOrHost t) :
    Silent (fun _ => False) 64 t ∨ Inside UserByte afterUserinfo t :=
  h.symm.imp_left fun hhost => hhost.dies (not_not.mpr (by decide)) rfl

theorem InUserOrPort.at {t : Thread UInt8 UriAction} (h : InUserOrPort t) :
    Silent (fun _ => False) 64 t ∨ Inside UserByte afterUserinfo t :=
  h.symm.imp_left fun hport => hport.dies (not_not.mpr (by decide)) rfl

/-- The state behind the first colon: one reading goes on, the other expects a port. -/
def BehindColon (ts : List (Thread UInt8 UriAction)) : Prop :=
  (∀ t ∈ ts, Inside UserByte afterUserinfo t ∨ t = atPort) ∧ atPort ∈ ts

/-- At the first colon the bytes before it are saved as a host. -/
theorem read_colon
    (hts : ∀ t ∈ ts, InUserOrHost t) (hlive : Live HostByte afterHost [] ts) (p : ℕ) :
    events p ts [58] = [(p, .saveHost)] ∧ BehindColon (read ts [58]) := by
  have hcolon : ¬ HostByte 58 := not_not.mpr List.mem_cons_self
  have huser : UserByte 58 := by
    rw [UserByte]
    decide
  obtain ⟨hfired, hnext, hmem⟩ := cross_inside
    (fun t ht => (hts t ht).imp_left (inside_userinfo_silent huser)) hlive hcolon
  rw [moves_afterHost_colon] at hfired hnext hmem
  refine ⟨?_, ?_, hmem _ (List.mem_singleton.mpr rfl)⟩
  · rw [events, events, hfired]
    rfl
  · intro t ht
    refine (hnext t ht).imp_right ?_
    rintro ⟨m, hm, rfl⟩
    rw [List.mem_singleton.mp hm]

/-- An authority that begins with a colon: the host before it is empty. -/
theorem read_first_colon (hts : Just atAuthority ts) (p : ℕ) :
    events p ts [58] = [(p, .markh), (p, .saveHost)] ∧ BehindColon (read ts [58]) := by
  obtain ⟨hfired, hnext, hmem⟩ := hts.cross (c := 58)
  rw [moves_atAuthority_colon] at hfired hnext hmem
  refine ⟨?_, ?_, hmem _ (List.mem_cons_of_mem _ List.mem_cons_self)⟩
  · rw [events, events, hfired]
    rfl
  · intro t ht
    obtain hfalse | ⟨m, hm, rfl⟩ := hnext t ht
    · exact hfalse.elim
    · simp only [List.mem_cons, List.not_mem_nil, or_false] at hm
      obtain rfl | rfl := hm
      · exact Or.inl (inside_singleton plain_userinfo _)
      · exact Or.inr rfl

/-- A decimal digit. -/
def isDigit (c : UInt8) : Bool :=
  48 ≤ c && c ≤ 57

theorem plain_port : port.Plain HostByte :=
  plain_of_avoids rfl

theorem hostByte_of_isDigit (hc : isDigit c = true) : HostByte c := by
  have hplain : digit.Plain HostByte := plain_of_avoids rfl
  exact hplain c hc

theorem moves_atPort (hc : UserByte c) :
    moves atPort c = if isDigit c then [([.markh], port :: afterPort)] else [] := by
  have hpath : c ∉ ([47, 63, 35] : List UInt8) := by simp_all [UserByte]
  have hdigit : digit.steps c = if isDigit c then [([], [])] else [] := rfl
  rw [atPort, moves_cons_of_eq_nil (moves_markedPath hpath), markedPort, Grammar.steps,
    Grammar.steps, port, Grammar.steps, hdigit]
  cases isDigit c with
  | false => rfl
  | true => rfl

/-- At the digit behind the colon the mark is moved. -/
theorem BehindColon.digit (hts : BehindColon ts) (hc : isDigit c = true) :
    fired ts c = [.markh] ∧ (∀ t ∈ next ts c, InUserOrPort t) ∧
      port :: afterPort ∈ next ts c := by
  have hbyte := (hostByte_of_isDigit hc).userByte
  have hport : moves atPort c = [([.markh], port :: afterPort)] := by
    rw [moves_atPort hbyte, if_pos hc]
  have hinside : Inside HostByte afterPort (port :: afterPort) :=
    inside_singleton plain_port _
  have hall : ∀ t ∈ ts, Silent (Inside UserByte afterUserinfo) c t ∨
      moves t c = [([.markh], port :: afterPort)] := by
    intro t ht
    refine (hts.1 t ht).imp (inside_userinfo_silent hbyte) ?_
    rintro rfl
    exact hport
  obtain ⟨hfired, hnext, hmem⟩ := cross hall ⟨atPort, hts.2, hport⟩
  refine ⟨hfired, ?_, hmem _ (List.mem_singleton.mpr rfl)⟩
  intro t ht
  refine (hnext t ht).imp_right ?_
  rintro ⟨m, hm, rfl⟩
  rw [List.mem_singleton.mp hm]
  exact hinside

/-- At any other byte the port is given up. -/
theorem BehindColon.silent (hts : BehindColon ts) (hc : UserByte c) (hdigit : isDigit c = false) :
    ∀ t ∈ ts, Silent InUserOrPort c t := by
  intro t ht
  cases hts.1 t ht with
  | inl huser => exact InUserOrPort.silent hc (Or.inl huser)
  | inr hport =>
    apply Silent.of_moves_eq_nil
    rw [hport, moves_atPort hc, hdigit]
    rfl

def startsWithDigit : List UInt8 → Bool
  | [] => false
  | d :: _ => isDigit d

/-- What is performed over the rest of a userinfo behind its first colon. -/
def markDigit (p : ℕ) (y : List UInt8) : List (ℕ × UriAction) :=
  if startsWithDigit y then [(p, .markh)] else []

theorem read_behind_colon
    {y : List UInt8} (hts : BehindColon ts) (hlive : Live UserByte afterUserinfo y ts)
    (hy : ∀ d ∈ y, UserByte d) (p : ℕ) :
    events p ts y = markDigit p y ∧ UserinfoRead (read ts y) := by
  have hrest : Live UserByte afterUserinfo [] (read ts y) := by
    apply Live.read
    rw [List.append_nil]
    exact hlive
  cases y with
  | nil =>
    refine ⟨rfl, ?_, hrest⟩
    intro t ht
    refine (hts.1 t ht).symm.imp_left ?_
    rintro rfl
    exact Silent.of_moves_eq_nil rfl
  | cons d y =>
    have hd := hy d List.mem_cons_self
    have hsilent : ∀ e ∈ y, ∀ t, InUserOrPort t → Silent InUserOrPort e t :=
      fun e he t ht => ht.silent (hy e (List.mem_cons_of_mem d he))
    cases hdigit : isDigit d with
    | true =>
      obtain ⟨hfired, hnext, -⟩ := hts.digit hdigit
      obtain ⟨hevents, hread⟩ := silent_read hsilent hnext (p + 1)
      refine ⟨?_, fun t ht => (hread t ht).at, hrest⟩
      rw [events, hfired, hevents, markDigit, startsWithDigit, if_pos hdigit]
      rfl
    | false =>
      have hnext := silent_next (hts.silent hd hdigit)
      obtain ⟨hevents, hread⟩ := silent_read hsilent hnext (p + 1)
      refine ⟨?_, fun t ht => (hread t ht).at, hrest⟩
      rw [events, fired_eq_nil (hts.silent hd hdigit), hevents, markDigit,
        startsWithDigit, hdigit]
      rfl

/-- What stands before the first colon of a userinfo is a reg-name. -/
theorem regName_of_userinfo {x y : List UInt8} (h : x ++ 58 :: y ∈ userinfo.lang) (hx : 58 ∉ x) :
    x ∈ regName.lang := by
  refine mem_kstar_of_append_cons ?_ h hx
  intro v hv
  have hplain : (alts [unreserved, pctEncoded, subDelims]).Plain HostByte :=
    plain_of_avoids rfl
  obtain hv | hv | hv | ⟨c, hc, rfl⟩ := hv
  · exact Or.inr ⟨Or.inl hv, fun h58 => forall_of_mem_lang hplain (Or.inl hv) 58 h58 (by decide)⟩
  · exact Or.inr ⟨Or.inr (Or.inl hv),
      fun h58 => forall_of_mem_lang hplain (Or.inr (Or.inl hv)) 58 h58 (by decide)⟩
  · exact Or.inr ⟨Or.inr (Or.inr hv),
      fun h58 => forall_of_mem_lang hplain (Or.inr (Or.inr hv)) 58 h58 (by decide)⟩
  · exact Or.inl (by rw [beq_iff_eq.mp hc])

theorem hostByte_of_ne (hc : UserByte c) (h : c ≠ 58) : HostByte c :=
  List.not_mem_cons_of_ne_of_not_mem h hc

/-- Over a userinfo without a colon. -/
theorem read_userinfo
    {u : List UInt8} (hts : Just atAuthority ts) (hu : u ∈ userinfo.lang) (hne : u ≠ [])
    (hcolon : 58 ∉ u) (p : ℕ) :
    events p ts u = [(p, .markh)] ∧ UserinfoRead (read ts u) := by
  cases u with
  | nil => exact absurd rfl hne
  | cons c w =>
    have hbytes : ∀ d ∈ c :: w, HostByte d := fun d hd =>
      hostByte_of_ne (forall_of_mem_lang plain_userinfo hu d hd) fun h => hcolon (h ▸ hd)
    obtain ⟨m, hm, hlive⟩ := exists_userinfo_move (hbytes c List.mem_cons_self) hu
    obtain ⟨hevents, hread⟩ := read_authority hts hbytes (List.ne_nil_of_mem hm) p
    refine ⟨hevents, fun t ht => (hread t ht).at, hts.live ⟨m, hm, ?_⟩⟩
    rw [List.append_nil]
    exact hlive

/-- The state behind the first colon of a userinfo: all that stands before it has been
saved as a host. -/
theorem read_userinfo_to_colon
    {x y : List UInt8} (hts : Just atAuthority ts) (hu : x ++ 58 :: y ∈ userinfo.lang)
    (hcolon : 58 ∉ x) (p : ℕ) :
    events p ts (x ++ [58]) = [(p, .markh), (p + x.length, .saveHost)] ∧
      BehindColon (read ts (x ++ [58])) ∧
      Live UserByte afterUserinfo y (read ts (x ++ [58])) := by
  cases x with
  | nil =>
    obtain ⟨hevents, hstate⟩ := read_first_colon hts p
    obtain ⟨m, hm, hy⟩ := (cons_mem_lang userinfo 58 y).mp hu
    have hsteps : userinfo.steps 58 = [([], [userinfo])] := rfl
    rw [hsteps, List.mem_singleton] at hm
    rw [hm] at hy
    rw [threadLang_singleton] at hy
    refine ⟨hevents, hstate, hts.live ⟨([.markh], userinfo :: afterUserinfo), ?_,
      live_singleton plain_userinfo _ hy⟩⟩
    rw [moves_atAuthority_colon]
    exact List.mem_cons_self
  | cons c x =>
    have hregName := regName_of_userinfo hu hcolon
    have hbytes := forall_of_mem_lang plain_regName hregName
    have hc := hbytes c List.mem_cons_self
    obtain ⟨m, hm, hlive⟩ := exists_userinfo_move hc hu
    have hhost : Live HostByte afterHost [] (read ts (c :: x)) := by
      obtain ⟨m, hm, hlive⟩ := exists_host_move hc hregName
      refine hts.live ⟨m, hm, ?_⟩
      rw [List.append_nil]
      exact hlive
    obtain ⟨hevents, hread⟩ := read_authority hts hbytes (List.ne_nil_of_mem hm) p
    obtain ⟨hevents', hstate⟩ := read_colon hread hhost (p + (c :: x).length)
    rw [read_append, events_append, hevents, hevents']
    refine ⟨rfl, hstate, ?_⟩
    exact (hts.live ⟨m, hm, hlive⟩).next

/-- Over a userinfo with a colon: a digit behind the first one moves the mark. -/
theorem read_userinfo_colon
    {x y : List UInt8} (hts : Just atAuthority ts) (hu : x ++ 58 :: y ∈ userinfo.lang)
    (hcolon : 58 ∉ x) (p : ℕ) :
    events p ts (x ++ 58 :: y) =
        [(p, .markh), (p + x.length, .saveHost)] ++ markDigit (p + x.length + 1) y ∧
      UserinfoRead (read ts (x ++ 58 :: y)) := by
  have hbytes := forall_of_mem_lang plain_userinfo hu
  have hy : ∀ d ∈ y, UserByte d := fun d hd =>
    hbytes d (List.mem_append_right x (List.mem_cons_of_mem 58 hd))
  obtain ⟨hevents, hstate, hlive⟩ := read_userinfo_to_colon hts hu hcolon p
  obtain ⟨hevents', hread⟩ := read_behind_colon hstate hlive hy (p + x.length + 1)
  have hsplit : x ++ 58 :: y = (x ++ [58]) ++ y := by
    rw [List.append_assoc, List.singleton_append]
  rw [hsplit, read_append, events_append, hevents, List.length_append,
    List.length_singleton, ← Nat.add_assoc, hevents']
  exact ⟨rfl, hread⟩

/-- A host has been read, and it may still be a userinfo. -/
def HostRead (ts : List (Thread UInt8 UriAction)) : Prop :=
  (∀ t ∈ ts, InUserOrHost t) ∧ Live HostByte afterHost [] ts

/-- Over the host of an authority without a userinfo. -/
theorem read_only_host
    {h : List UInt8} (hts : Just atAuthority ts) (hh : h ∈ regName.lang) (hne : h ≠ []) (p : ℕ) :
    events p ts h = [(p, .markh)] ∧ HostRead (read ts h) := by
  cases h with
  | nil => exact absurd rfl hne
  | cons c w =>
    have hbytes := forall_of_mem_lang plain_regName hh
    obtain ⟨m, hm, hlive⟩ := exists_host_move (hbytes c List.mem_cons_self) hh
    obtain ⟨hevents, hread⟩ := read_authority hts hbytes (List.ne_nil_of_mem hm) p
    refine ⟨hevents, hread, hts.live ⟨m, hm, ?_⟩⟩
    rw [List.append_nil]
    exact hlive

theorem moves_atHost (hc : HostByte c) :
    moves atHost c = (host.steps c).map fun m => (.markh :: m.1, m.2 ++ afterHost) := by
  have hport : moves [portPart, markedPath, tail] c = [] := by
    rw [portPart, moves_opt_led (List.ne_of_not_mem_cons hc)]
    exact moves_markedPath (by simp_all [HostByte])
  rw [atHost, moves_seq, moves_cons_of_eq_nil hport, markedHost]
  simp [Grammar.steps, afterHost, Function.comp_def]

theorem read_host
    {h : List UInt8} (hts : Just atHost ts) (hh : h ∈ regName.lang) (hne : h ≠ []) (p : ℕ) :
    events p ts h = [(p, .markh)] ∧ HostRead (read ts h) := by
  cases h with
  | nil => exact absurd rfl hne
  | cons c w =>
    have hbytes := forall_of_mem_lang plain_regName hh
    have hc := hbytes c List.mem_cons_self
    have hmoves : ∀ m ∈ moves atHost c, m.1 = [.markh] ∧ InUserOrHost m.2 := by
      intro m hm
      rw [moves_atHost hc] at hm
      obtain ⟨m', hm', rfl⟩ := List.mem_map.mp hm
      obtain ⟨hacts, hinside⟩ := inside_host hc m' hm'
      exact ⟨by simp [hacts], Or.inr hinside⟩
    obtain ⟨m, hm, hlive⟩ := exists_step_host hh
    have hm : (UriAction.markh :: m.1, m.2 ++ afterHost) ∈ moves atHost c := by
      rw [moves_atHost hc]
      exact List.mem_map.mpr ⟨m, hm, rfl⟩
    have hfired : fired ts c = [.markh] := by
      rw [hts.cross.1]
      exact eraseDups_flatMap (l := [UriAction.markh])
        (fun m hm => Or.inr (hmoves m hm).1) ⟨_, hm, (hmoves _ hm).1⟩
    obtain ⟨hevents, hread⟩ := hts.read (fun m hm => (hmoves m hm).2)
      (fun d hd t ht => ht.silent (hbytes d (List.mem_cons_of_mem c hd))) p
    rw [hfired] at hevents
    refine ⟨hevents, hread, hts.live ⟨_, hm, ?_⟩⟩
    rw [List.append_nil]
    exact hlive

theorem mem_port {w : List UInt8} (hw : ∀ d ∈ w, isDigit d = true) : w ∈ port.lang := by
  refine Language.mem_kstar.mpr ⟨w.map fun d => [d], ?_, ?_⟩
  · rw [← List.flatMap_def, List.flatMap_singleton']
  · intro v hv
    obtain ⟨d, hd, rfl⟩ := List.mem_map.mp hv
    exact ⟨d, hw d hd, rfl⟩

theorem read_port
    {w : List UInt8} (hts : BehindColon ts) (hw : ∀ d ∈ w, isDigit d = true) (hne : w ≠ [])
    (p : ℕ) :
    events p ts w = [(p, .markh)] ∧ (∀ t ∈ read ts w, InUserOrPort t) ∧
      Live HostByte afterPort [] (read ts w) := by
  cases w with
  | nil => exact absurd rfl hne
  | cons d w =>
    have hrest : ∀ e ∈ w, isDigit e = true := fun e he => hw e (List.mem_cons_of_mem d he)
    obtain ⟨hfired, hnext, hmem⟩ := hts.digit (hw d List.mem_cons_self)
    obtain ⟨hevents, hread⟩ := silent_read
      (fun e he t ht => InUserOrPort.silent (hostByte_of_isDigit (hrest e he)).userByte ht)
      hnext (p + 1)
    have hlive : Live HostByte afterPort (w ++ []) (next ts d) := by
      rw [List.append_nil]
      exact (live_singleton plain_port afterPort (mem_port hrest)).of_mem hmem
    refine ⟨?_, hread, hlive.read⟩
    rw [events, hfired, hevents]
    rfl

theorem not_userByte_slash : ¬ UserByte 47 :=
  not_not.mpr (by decide)

theorem not_hostByte_slash : ¬ HostByte 47 :=
  not_not.mpr (by decide)

theorem read_slash_of_host (hts : HostRead ts) (p : ℕ) :
    events p ts [47] = [(p, .saveHost), (p, .markh)] ∧ Just atPath (read ts [47]) := by
  obtain ⟨hfired, hjust⟩ := cross_just (l := [UriAction.saveHost, .markh]) (t := atPath)
    (fun t ht => (hts.1 t ht).imp_left fun huser => huser.dies not_userByte_slash rfl)
    hts.2 not_hostByte_slash (by simp [moves_afterHost_slash])
    (by simp [moves_afterHost_slash])
  refine ⟨?_, hjust⟩
  rw [events, events, hfired]
  rfl

theorem read_slash_of_port
    (hts : ∀ t ∈ ts, InUserOrPort t) (hlive : Live HostByte afterPort [] ts) (p : ℕ) :
    events p ts [47] = [(p, .savePort), (p, .markh)] ∧ Just atPath (read ts [47]) := by
  obtain ⟨hfired, hjust⟩ := cross_just (l := [UriAction.savePort, .markh]) (t := atPath)
    (fun t ht => (hts t ht).imp_left fun huser => huser.dies not_userByte_slash rfl)
    hlive not_hostByte_slash (by simp [moves_afterPort_slash])
    (by simp [moves_afterPort_slash])
  refine ⟨?_, hjust⟩
  rw [events, events, hfired]
  rfl

end Authority

section Rest

variable {ts : List (Thread UInt8 UriAction)}

/-- `(pchar | "/")*`. -/
def pathText : Rule :=
  .star (alts [pchar, byte 47])

/-- Bytes of a path are segments with slashes between them. -/
theorem mem_segments_of_pathText {r : List UInt8} (hr : r ∈ pathText.lang) :
    r ∈ threadLang [segment, segments] := by
  rw [threadLang_cons, threadLang_singleton]
  exact kstar_add_le pchar.lang (byte 47).lang hr

/-- Over the rest of a path nothing is performed. -/
theorem read_path {r : List UInt8} (hts : Just atPath ts) (hr : r ∈ pathText.lang) (p : ℕ) :
    events p ts r = [] ∧ Passed PathByte afterPath (read ts r) := by
  have hr := mem_segments_of_pathText hr
  have hplain : ∀ h ∈ [segment, segments], h.Plain PathByte := by
    rintro h (_ | ⟨_, _ | ⟨_, ⟨⟩⟩⟩)
    · exact plain_of_avoids rfl
    · exact plain_of_avoids rfl
  have hbytes := forall_of_mem_threadLang hplain hr
  have hinside : ∀ t ∈ ts, Inside PathByte afterPath t := by
    intro t ht
    exact ⟨[segment, segments], hplain, hts.2 t ht⟩
  obtain ⟨hevents, hread⟩ := silent_read
    (fun d hd t ht => Inside.moves ht (by
      rw [afterPath, moves_leave_eps, moves_tail (hbytes d hd), List.map_nil]))
    hinside p
  refine ⟨hevents, hread, ?_⟩
  have hlive : Live PathByte afterPath (r ++ []) ts := by
    rw [List.append_nil]
    exact ⟨[segment, segments], hplain, hts.1, hr⟩
  exact hlive.read

theorem plain_queryText : queryText.Plain QueryByte :=
  plain_of_avoids rfl

theorem read_query {q : List UInt8} (hts : Passed PathByte afterPath ts) (hq : q ∈ queryText.lang)
    (hne : q ≠ []) (p : ℕ) :
    events p ts (63 :: q) = [(p, .savePath), (p + 1, .marku)] ∧
      Passed QueryByte afterQuery (read ts (63 :: q)) :=
  hts.read_token (not_not.mpr (by decide)) rfl plain_queryText
    (fun _ hd => moves_fragmentPart hd) hq hne p

theorem read_fragment_of_path
    {f : List UInt8} (hts : Passed PathByte afterPath ts) (hf : f ∈ queryText.lang)
    (hne : f ≠ []) (p : ℕ) :
    events p ts (35 :: f) = [(p, .savePath), (p + 1, .marku)] ∧
      Passed QueryByte afterFragment (read ts (35 :: f)) :=
  hts.read_token (not_not.mpr (by decide)) rfl plain_queryText (fun _ _ => rfl) hf hne p

theorem read_fragment_of_query
    {f : List UInt8} (hts : Passed QueryByte afterQuery ts) (hf : f ∈ queryText.lang)
    (hne : f ≠ []) (p : ℕ) :
    events p ts (35 :: f) = [(p, .saveQuery), (p + 1, .marku)] ∧
      Passed QueryByte afterFragment (read ts (35 :: f)) :=
  hts.read_token (not_not.mpr (by decide)) rfl plain_queryText (fun _ _ => rfl) hf hne p

end Rest

end UriParser
end Civan
