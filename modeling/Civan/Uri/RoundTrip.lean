import Civan.Uri.Reading
import Mathlib.Data.List.TakeWhile

/-!
# Parsing what has been printed

`Uri::Create` on the text that `toString` prints.  Everything comes back but, in one case,
the userinfo: if the first colon in it is followed by a digit, the reading that takes the
digit for the beginning of a port has moved `mark` there, and at the `@` only what follows
the colon is saved.
-/

namespace Civan
namespace UriParser

open ActionGrammar Strtol
open Http (bytesOf decimal)

section Runs

variable {text w v : List UInt8} {s s' : ParseState}

/-- The state of the actions after a part of the text. -/
def Reached (text w : List UInt8) (s : ParseState) : Prop :=
  (events 0 start w).foldlM (act text) ⟨Uri.new, none⟩ = .ok s

theorem Reached.append {es : List (ℕ × UriAction)}
    (h : Reached text w s) (hes : events w.length (read start w) v = es)
    (hrun : es.foldlM (act text) s = .ok s') :
    Reached text (w ++ v) s' := by
  rw [Reached, events_append, Nat.zero_add, hes, List.foldlM_append, h]
  exact hrun

/-- A text of which everything has been read and accepted. -/
theorem create_of_reached {es : List UriAction}
    (h : Reached text text s) (hend : firedAtEnd (read start text) = es)
    (hacc : accepting (read start text) = true)
    (hrun : (es.map fun a => (text.length, a)).foldlM (act text) s = .ok s') :
    Uri.create text = .ok (some s'.uri) := by
  have hperformed : (performed text).foldlM (act text) ⟨Uri.new, none⟩ = .ok s' := by
    rw [performed, hend, List.foldlM_append, h]
    exact hrun
  rw [Uri.create, hperformed, hacc]
  rfl

theorem slice_append (pre mid post : List UInt8) :
    slice (pre ++ (mid ++ post)) pre.length (pre ++ mid).length = mid := by
  rw [slice, List.drop_left, List.length_append, Nat.add_sub_cancel_left, List.take_left]

end Runs

section Parts

variable {text w rest : List UInt8} {u : Uri}

theorem reached_scheme {a : List UInt8} (ha : a ∈ schemeText.lang) (htext : text = a ++ rest) :
    Reached text (a ++ [58, 47, 47]) ⟨{ Uri.new with scheme := a }, none⟩ ∧
      Just atAuthority (read start (a ++ [58, 47, 47])) := by
  obtain ⟨hevents, hts, hlive⟩ := read_scheme ha
  obtain ⟨hevents', hjust⟩ := read_slashes hts hlive a.length
  have hmark : Reached text a ⟨Uri.new, some 0⟩ := by
    rw [Reached, hevents]
    rfl
  rw [read_append]
  refine ⟨hmark.append hevents' ?_, hjust⟩
  have hslice : slice text 0 a.length = a := by
    rw [htext, slice, List.drop_zero, Nat.sub_zero, List.take_left]
  change Except.ok (ParseState.mk { Uri.new with scheme := slice text 0 a.length } none) = _
  rw [hslice]

/-- What is saved of a userinfo: if a digit follows the first colon, what follows it. -/
def savedUserinfo (x : List UInt8) : List UInt8 :=
  match x.dropWhile fun c => c ≠ 58 with
  | [] => x
  | _ :: y => if startsWithDigit y then y else x

theorem savedUserinfo_of_not_mem {x : List UInt8} (hx : 58 ∉ x) : savedUserinfo x = x := by
  have hdrop : (x.dropWhile fun c => c ≠ 58) = [] := by
    rw [List.dropWhile_eq_nil_iff]
    intro c hc
    exact decide_eq_true fun h => hx (h ▸ hc)
  rw [savedUserinfo, hdrop]

theorem savedUserinfo_colon {a b : List UInt8} (ha : 58 ∉ a) :
    savedUserinfo (a ++ 58 :: b) = if startsWithDigit b then b else a ++ 58 :: b := by
  have hdrop : ((a ++ 58 :: b).dropWhile fun c => c ≠ 58) = 58 :: b := by
    rw [List.dropWhile_append_of_pos]
    · rfl
    · intro c hc
      exact decide_eq_true fun h => ha (h ▸ hc)
  rw [savedUserinfo, hdrop]

/-- The bytes of the userinfo leave `mark` where it is saved from. -/
theorem reached_userinfo_bytes
    {x : List UInt8} (h : Reached text w ⟨u, none⟩) (hts : Just atAuthority (read start w))
    (hx : x ∈ userinfo.lang) (hne : x ≠ []) (htext : text = w ++ (x ++ rest)) :
    ∃ host' m, Reached text (w ++ x) ⟨{ u with host := host' }, some m⟩ ∧
      slice text m (w ++ x).length = savedUserinfo x ∧
      UserinfoRead (read start (w ++ x)) := by
  have hslice : slice text w.length (w ++ x).length = x := by rw [htext, slice_append]
  by_cases hcolon : 58 ∈ x
  · obtain ⟨a, b, rfl, ha⟩ := List.eq_append_cons_of_mem hcolon
    obtain ⟨hevents, hread⟩ := read_userinfo_colon hts hx ha w.length
    rw [savedUserinfo_colon ha, read_append]
    cases hdigit : startsWithDigit b with
    | false =>
      rw [markDigit, hdigit] at hevents
      exact ⟨_, w.length, h.append hevents rfl, hslice, hread⟩
    | true =>
      rw [markDigit, hdigit] at hevents
      refine ⟨_, w.length + a.length + 1, h.append hevents rfl, ?_, hread⟩
      have hsplit : text = (w ++ a ++ [58]) ++ (b ++ rest) := by
        rw [htext]
        simp
      have hbytes : w ++ (a ++ 58 :: b) = (w ++ a ++ [58]) ++ b := by simp
      have hfrom : w.length + a.length + 1 = (w ++ a ++ [58]).length := by
        rw [List.length_append, List.length_append, List.length_singleton]
      rw [hbytes, hfrom, hsplit, slice_append]
      rfl
  · obtain ⟨hevents, hread⟩ := read_userinfo hts hx hne hcolon w.length
    rw [savedUserinfo_of_not_mem hcolon, read_append]
    exact ⟨u.host, w.length, h.append hevents rfl, hslice, hread⟩

/-- The userinfo and its `@`; a host may have been saved on the way. -/
theorem reached_userinfo
    {x : List UInt8} (h : Reached text w ⟨u, none⟩) (hts : Just atAuthority (read start w))
    (hx : x ∈ userinfo.lang) (hne : x ≠ []) (htext : text = w ++ (x ++ rest)) :
    ∃ host', Reached text (w ++ x ++ [64])
        ⟨{ u with userinfo := savedUserinfo x, host := host' }, none⟩ ∧
      Just atHost (read start (w ++ x ++ [64])) := by
  obtain ⟨host', m, hbytes, hslice, hread⟩ := reached_userinfo_bytes h hts hx hne htext
  obtain ⟨hevents, hjust⟩ := read_at hread (w ++ x).length
  rw [read_append]
  refine ⟨host', hbytes.append hevents ?_, hjust⟩
  rw [← hslice]
  rfl

theorem reached_host {x : List UInt8} (h : Reached text w ⟨u, none⟩)
    (hts : Just atAuthority (read start w) ∨ Just atHost (read start w))
    (hx : x ∈ regName.lang) (hne : x ≠ []) :
    Reached text (w ++ x) ⟨u, some w.length⟩ ∧ HostRead (read start (w ++ x)) := by
  obtain ⟨hevents, hread⟩ : events w.length (read start w) x = [(w.length, .markh)] ∧
      HostRead (read (read start w) x) := by
    cases hts with
    | inl hauthority => exact read_only_host hauthority hx hne w.length
    | inr hhost => exact read_host hhost hx hne w.length
  rw [read_append]
  exact ⟨h.append hevents rfl, hread⟩

theorem reached_slash {x : List UInt8} (h : Reached text (w ++ x) ⟨u, some w.length⟩)
    (hts : HostRead (read start (w ++ x))) (htext : text = w ++ (x ++ rest)) :
    Reached text (w ++ x ++ [47]) ⟨{ u with host := x }, some (w ++ x).length⟩ ∧
      Just atPath (read start (w ++ x ++ [47])) := by
  obtain ⟨hevents, hjust⟩ := read_slash_of_host hts (w ++ x).length
  have hslice : slice text w.length (w ++ x).length = x := by rw [htext, slice_append]
  rw [← read_append] at hjust
  refine ⟨h.append hevents ?_, hjust⟩
  change Except.ok (ParseState.mk { u with host := slice text w.length (w ++ x).length }
    (some (w ++ x).length)) = _
  rw [hslice]

theorem savePort_of_ne (text : List UInt8) (u : Uri) {m fpc : ℕ} (h : m ≠ fpc) :
    savePort text ⟨u, some m⟩ fpc = .ok ⟨{ u with port := atoi (text.drop m) }, none⟩ := by
  rw [savePort, if_neg fun heq => h (Option.some.inj heq)]

/-- The colon and the digits of a port: the host is saved, and the port marked. -/
theorem reached_digits {x d : List UInt8} (h : Reached text (w ++ x) ⟨u, some w.length⟩)
    (hts : HostRead (read start (w ++ x))) (hd : ∀ c ∈ d, isDigit c = true) (hne : d ≠ [])
    (htext : text = w ++ (x ++ rest)) :
    Reached text (w ++ x ++ [58] ++ d)
        ⟨{ u with host := x }, some (w ++ x ++ [58]).length⟩ ∧
      (∀ t ∈ read start (w ++ x ++ [58] ++ d), InUserOrPort t) ∧
      Live HostByte afterPort [] (read start (w ++ x ++ [58] ++ d)) := by
  have hslice : slice text w.length (w ++ x).length = x := by rw [htext, slice_append]
  obtain ⟨hevents, hcolon⟩ := read_colon hts.1 hts.2 (w ++ x).length
  rw [← read_append] at hcolon
  obtain ⟨hevents', hport, hlive⟩ := read_port hcolon hd hne (w ++ x ++ [58]).length
  rw [← read_append] at hport hlive
  have hhost : Reached text (w ++ x ++ [58]) ⟨{ u with host := x }, some w.length⟩ := by
    refine h.append hevents ?_
    change Except.ok (ParseState.mk { u with host := slice text w.length (w ++ x).length }
      (some w.length)) = _
    rw [hslice]
  exact ⟨hhost.append hevents' rfl, hport, hlive⟩

theorem reached_port {x d : List UInt8} (h : Reached text (w ++ x) ⟨u, some w.length⟩)
    (hts : HostRead (read start (w ++ x))) (hd : ∀ c ∈ d, isDigit c = true) (hne : d ≠ [])
    (htext : text = w ++ (x ++ 58 :: (d ++ rest))) :
    Reached text (w ++ x ++ [58] ++ d ++ [47])
        ⟨{ u with host := x, port := atoi (d ++ rest) }, some (w ++ x ++ [58] ++ d).length⟩ ∧
      Just atPath (read start (w ++ x ++ [58] ++ d ++ [47])) := by
  obtain ⟨hmark, hport, hlive⟩ := reached_digits h hts hd hne htext
  obtain ⟨hevents, hjust⟩ := read_slash_of_port hport hlive (w ++ x ++ [58] ++ d).length
  rw [← read_append] at hjust
  refine ⟨hmark.append hevents ?_, hjust⟩
  have hdrop : text.drop (w ++ x ++ [58]).length = d ++ rest := by
    have hsplit : text = (w ++ x ++ [58]) ++ (d ++ rest) := by
      rw [htext]
      simp
    rw [hsplit, List.drop_left]
  have hlt : (w ++ x ++ [58]).length ≠ (w ++ x ++ [58] ++ d).length := by
    have hpos := List.length_pos_iff.mpr hne
    have hlen : (w ++ x ++ [58] ++ d).length = (w ++ x ++ [58]).length + d.length :=
      List.length_append
    omega
  have hsave := savePort_of_ne text { u with host := x } hlt
  rw [hdrop] at hsave
  simp only [List.foldlM_cons, act, hsave]
  rfl

theorem reached_path {r : List UInt8} (h : Reached text (w ++ [47]) ⟨u, some w.length⟩)
    (hts : Just atPath (read start (w ++ [47]))) (hr : r ∈ pathText.lang) :
    Reached text (w ++ 47 :: r) ⟨u, some w.length⟩ ∧
      Passed PathByte afterPath (read start (w ++ 47 :: r)) := by
  obtain ⟨hevents, hpassed⟩ := read_path hts hr (w ++ [47]).length
  have hsplit : w ++ 47 :: r = (w ++ [47]) ++ r := by
    rw [List.append_assoc, List.singleton_append]
  rw [← read_append] at hpassed
  rw [hsplit]
  exact ⟨h.append hevents rfl, hpassed⟩

/-- The question mark or number sign behind a part, and the part behind it. -/
theorem slice_behind {c : UInt8} {x : List UInt8} (htext : text = w ++ (c :: x ++ rest)) :
    slice text (w.length + 1) (w ++ c :: x).length = x := by
  have hsplit : text = (w ++ [c]) ++ (x ++ rest) := by
    rw [htext]
    simp
  have hbytes : w ++ c :: x = (w ++ [c]) ++ x := by rw [List.append_assoc, List.singleton_append]
  have hfrom : w.length + 1 = (w ++ [c]).length := by
    rw [List.length_append, List.length_singleton]
  rw [hbytes, hfrom, hsplit, slice_append]

theorem reached_query {q : List UInt8} {m : ℕ} (h : Reached text w ⟨u, some m⟩)
    (hts : Passed PathByte afterPath (read start w)) (hq : q ∈ queryText.lang) (hne : q ≠ []) :
    Reached text (w ++ 63 :: q)
        ⟨{ u with path := slice text m w.length }, some (w.length + 1)⟩ ∧
      Passed QueryByte afterQuery (read start (w ++ 63 :: q)) := by
  obtain ⟨hevents, hpassed⟩ := read_query hts hq hne w.length
  rw [read_append]
  exact ⟨h.append hevents rfl, hpassed⟩

theorem reached_fragment_of_path {f : List UInt8} {m : ℕ} (h : Reached text w ⟨u, some m⟩)
    (hts : Passed PathByte afterPath (read start w)) (hf : f ∈ queryText.lang) (hne : f ≠ []) :
    Reached text (w ++ 35 :: f)
        ⟨{ u with path := slice text m w.length }, some (w.length + 1)⟩ ∧
      Passed QueryByte afterFragment (read start (w ++ 35 :: f)) := by
  obtain ⟨hevents, hpassed⟩ := read_fragment_of_path hts hf hne w.length
  rw [read_append]
  exact ⟨h.append hevents rfl, hpassed⟩

theorem reached_fragment_of_query {f : List UInt8} {m : ℕ} (h : Reached text w ⟨u, some m⟩)
    (hts : Passed QueryByte afterQuery (read start w)) (hf : f ∈ queryText.lang) (hne : f ≠ []) :
    Reached text (w ++ 35 :: f)
        ⟨{ u with query := slice text m w.length }, some (w.length + 1)⟩ ∧
      Passed QueryByte afterFragment (read start (w ++ 35 :: f)) := by
  obtain ⟨hevents, hpassed⟩ := read_fragment_of_query hts hf hne w.length
  rw [read_append]
  exact ⟨h.append hevents rfl, hpassed⟩

/-- The end of the text saves the last part. -/
theorem create_of_path {m : ℕ} (h : Reached text text ⟨u, some m⟩)
    (hts : Passed PathByte afterPath (read start text)) :
    Uri.create text = .ok (some { u with path := slice text m text.length }) := by
  obtain ⟨hend, hacc⟩ := hts.atEnd rfl
  exact create_of_reached h hend hacc rfl

theorem create_of_query {m : ℕ} (h : Reached text text ⟨u, some m⟩)
    (hts : Passed QueryByte afterQuery (read start text)) :
    Uri.create text = .ok (some { u with query := slice text m text.length }) := by
  obtain ⟨hend, hacc⟩ := hts.atEnd rfl
  exact create_of_reached h hend hacc rfl

theorem create_of_fragment {m : ℕ} (h : Reached text text ⟨u, some m⟩)
    (hts : Passed QueryByte afterFragment (read start text)) :
    Uri.create text = .ok (some { u with fragment := slice text m text.length }) := by
  obtain ⟨hend, hacc⟩ := hts.atEnd rfl
  exact create_of_reached h hend hacc rfl

/-- Query and fragment, each with its sign if there is one. -/
theorem create_tail {q f : List UInt8} {m : ℕ} (h : Reached text w ⟨u, some m⟩)
    (hts : Passed PathByte afterPath (read start w))
    (hq : q ∈ queryText.lang) (hf : f ∈ queryText.lang)
    (hquery : u.query = []) (hfragment : u.fragment = [])
    (htext : text = w ++ ((if q = [] then [] else 63 :: q) ++ (if f = [] then [] else 35 :: f))) :
    Uri.create text =
      .ok (some { u with path := slice text m w.length, query := q, fragment := f }) := by
  by_cases hqne : q = []
  · rw [if_pos hqne, List.nil_append] at htext
    by_cases hfne : f = []
    · rw [if_pos hfne, List.append_nil] at htext
      subst htext
      rw [create_of_path h hts, hqne, hfne, hquery, hfragment]
    · rw [if_neg hfne] at htext
      obtain ⟨hreached, hpassed⟩ := reached_fragment_of_path h hts hf hfne
      have hslice := slice_behind (show text = w ++ (35 :: f ++ []) by rw [List.append_nil, htext])
      rw [← htext] at hreached hpassed hslice
      rw [create_of_fragment hreached hpassed, hslice, hqne, ← hquery]
  · rw [if_neg hqne] at htext
    obtain ⟨hreached, hpassed⟩ := reached_query h hts hq hqne
    have hslice : slice text (w.length + 1) (w ++ 63 :: q).length = q := slice_behind htext
    by_cases hfne : f = []
    · rw [if_pos hfne, List.append_nil] at htext
      rw [← htext] at hreached hpassed hslice
      rw [create_of_query hreached hpassed, hslice, hfne, ← hfragment]
    · rw [if_neg hfne, ← List.append_assoc] at htext
      obtain ⟨hreached', hpassed'⟩ := reached_fragment_of_query hreached hpassed hf hfne
      have hslice' := slice_behind
        (show text = w ++ 63 :: q ++ (35 :: f ++ []) by rw [List.append_nil, htext])
      rw [← htext] at hreached' hpassed' hslice'
      rw [create_of_fragment hreached' hpassed', hslice, hslice']

end Parts

section Printed

variable {u : Uri}

/-- What the parts of a URI may be: a scheme, a userinfo or none, a reg-name, a port, a
path that begins with a slash, and a query and a fragment or none. -/
structure Uri.Printable (u : Uri) : Prop where
  scheme : u.scheme ∈ UriParser.scheme.lang
  userinfo : u.userinfo = [] ∨ u.userinfo ∈ UriParser.userinfo.lang
  host : u.host ∈ regName.lang
  host_ne_nil : u.host ≠ []
  port_pos : 1 ≤ u.port
  port_le : u.port ≤ 65535
  path : ∃ r, u.path = 47 :: r ∧ r ∈ pathText.lang
  query : u.query ∈ queryText.lang
  fragment : u.fragment ∈ queryText.lang

theorem isDigit_of_mem_decimal (n : ℕ) : ∀ c ∈ decimal n, isDigit c = true := by
  intro c hc
  obtain ⟨hle, hge⟩ := Http.decimal_digits n c hc
  rw [isDigit, decide_eq_true hle, decide_eq_true hge]
  rfl

/-- `atoi` reads a printed port back. -/
theorem atoi_decimal {n : ℕ} (hn : n < 2 ^ 31) (rest : List UInt8) :
    atoi (decimal n ++ 47 :: rest) = n := by
  have hvalue : value 10 (decimal n) = n := by
    rw [value]
    conv_rhs => rw [← Http.foldl_decimal n]
    refine List.foldl_ext _ _ _ ?_
    intro k c hc
    rw [digitOf_of_decimal (Http.decimal_digits n c hc)]
  have hne : decimal n ≠ [] := by
    rw [Http.decimal_eq_map]
    simp
  have hrest : ∀ c ∈ (47 :: rest).head?, ¬ (48 ≤ c ∧ c ≤ 57) := by
    rintro c ⟨⟩
    decide
  rw [atoi_digits_append hne (Http.decimal_digits n) hrest (by rw [hvalue]; exact hn), hvalue]

theorem toStringInt_of_pos {n : ℤ} (hn : 1 ≤ n) : toStringInt n = decimal n.natAbs := by
  rw [toStringInt, if_neg (by omega)]

/-- The userinfo as it is printed. -/
def Uri.userText (u : Uri) : List UInt8 :=
  if u.userinfo = [] then [] else u.userinfo ++ [64]

/-- The port as it is printed. -/
def Uri.portText (u : Uri) : List UInt8 :=
  if u.isDefaultPort then [] else 58 :: decimal u.port.natAbs

/-- Query and fragment as they are printed. -/
def Uri.tailText (u : Uri) : List UInt8 :=
  (if u.query = [] then [] else 63 :: u.query) ++
    (if u.fragment = [] then [] else 35 :: u.fragment)

theorem Uri.Printable.toString_eq (h : u.Printable) :
    u.toString = u.scheme ++ ([58, 47, 47] ++ (u.userText ++ (u.host ++ (u.portText ++
      (u.path ++ u.tailText))))) := by
  have hpath : u.getPath = u.path := by
    obtain ⟨r, hr, -⟩ := h.path
    rw [Uri.getPath, if_neg]
    rw [hr]
    exact List.cons_ne_nil _ _
  have hcolon : bytesOf ":" = [58] := rfl
  have hsep : bytesOf "://" = [58, 47, 47] := rfl
  have hat : bytesOf "@" = [64] := rfl
  have hquestion : bytesOf "?" = [63] := rfl
  have hhash : bytesOf "#" = [35] := rfl
  rw [Uri.toString, hpath, toStringInt_of_pos h.port_pos, hcolon, hsep, hat, hquestion, hhash,
    Uri.userText, Uri.portText, Uri.tailText]
  split_ifs <;> simp_all

/-- The port that is stored when the printed URI is parsed. -/
def Uri.parsedPort (u : Uri) : ℤ :=
  if u.isDefaultPort then 0 else u.port

/-- Up to the host, which may have been saved before. -/
theorem Uri.Printable.reached_userText (h : u.Printable) {text rest : List UInt8}
    (htext : text = u.scheme ++ ([58, 47, 47] ++ (u.userText ++ rest))) :
    ∃ host', Reached text (u.scheme ++ [58, 47, 47] ++ u.userText)
        ⟨{ Uri.new with
          scheme := u.scheme, userinfo := savedUserinfo u.userinfo, host := host' }, none⟩ ∧
      (Just atAuthority (read start (u.scheme ++ [58, 47, 47] ++ u.userText)) ∨
        Just atHost (read start (u.scheme ++ [58, 47, 47] ++ u.userText))) := by
  obtain ⟨hreached, hjust⟩ := reached_scheme h.scheme htext
  by_cases hnil : u.userinfo = []
  · rw [Uri.userText, if_pos hnil, List.append_nil, hnil]
    exact ⟨[], hreached, Or.inl hjust⟩
  · have huser := h.userinfo.resolve_left hnil
    have hsplit : text = u.scheme ++ [58, 47, 47] ++ (u.userinfo ++ 64 :: rest) := by
      rw [htext, Uri.userText, if_neg hnil]
      simp
    obtain ⟨host', hreached', hhost⟩ := reached_userinfo hreached hjust huser hnil hsplit
    rw [Uri.userText, if_neg hnil, ← List.append_assoc]
    exact ⟨host', hreached', Or.inr hhost⟩

/-- From the host to the first slash of the path. -/
theorem Uri.Printable.reached_portText (h : u.Printable) {text w rest : List UInt8} {v : Uri}
    (hreached : Reached text w ⟨v, none⟩) (hport : v.port = 0)
    (hts : Just atAuthority (read start w) ∨ Just atHost (read start w))
    (htext : text = w ++ (u.host ++ (u.portText ++ 47 :: rest))) :
    Reached text (w ++ u.host ++ u.portText ++ [47])
        ⟨{ v with host := u.host, port := u.parsedPort },
          some (w ++ u.host ++ u.portText).length⟩ ∧
      Just atPath (read start (w ++ u.host ++ u.portText ++ [47])) := by
  obtain ⟨hhost, hread⟩ := reached_host hreached hts h.host h.host_ne_nil
  rw [Uri.portText, Uri.parsedPort]
  cases hdefault : u.isDefaultPort with
  | true =>
    rw [if_pos rfl, if_pos rfl, List.append_nil, ← hport]
    exact reached_slash hhost hread htext
  | false =>
    have hatoi : atoi (decimal u.port.natAbs ++ 47 :: rest) = u.port := by
      have hle := h.port_le
      have hpos := h.port_pos
      rw [atoi_decimal (by omega)]
      omega
    have hne : decimal u.port.natAbs ≠ [] := by
      rw [Http.decimal_eq_map]
      simp
    have hsplit : text = w ++ (u.host ++ 58 :: (decimal u.port.natAbs ++ 47 :: rest)) := by
      rw [htext, Uri.portText, hdefault]
      rfl
    obtain ⟨hslash, hjust⟩ := reached_port hhost hread
      (isDigit_of_mem_decimal u.port.natAbs) hne hsplit
    have hcons : w ++ u.host ++ 58 :: decimal u.port.natAbs =
        w ++ u.host ++ [58] ++ decimal u.port.natAbs := by
      rw [List.append_assoc (w ++ u.host), List.singleton_append]
    rw [hatoi] at hslash
    rw [if_neg Bool.false_ne_true, if_neg Bool.false_ne_true, hcons]
    exact ⟨hslash, hjust⟩

/-- What the parser makes of a printed URI. -/
theorem Uri.Printable.create_toString (h : u.Printable) :
    Uri.create u.toString =
      .ok (some { u with userinfo := savedUserinfo u.userinfo, port := u.parsedPort }) := by
  obtain ⟨r, hpath, hr⟩ := h.path
  have htext := h.toString_eq
  obtain ⟨host', hreached, hts⟩ := h.reached_userText htext
  have hsplit : u.toString = u.scheme ++ [58, 47, 47] ++ u.userText ++
      (u.host ++ (u.portText ++ 47 :: (r ++ u.tailText))) := by
    rw [htext, hpath]
    simp
  obtain ⟨hslash, hjust⟩ := h.reached_portText hreached rfl hts hsplit
  obtain ⟨hread, hpassed⟩ := reached_path hslash hjust hr
  have hend : u.toString = u.scheme ++ [58, 47, 47] ++ u.userText ++ u.host ++ u.portText ++
      47 :: r ++ u.tailText := by
    rw [hsplit]
    simp
  have hslice : slice u.toString
      (u.scheme ++ [58, 47, 47] ++ u.userText ++ u.host ++ u.portText).length
      (u.scheme ++ [58, 47, 47] ++ u.userText ++ u.host ++ u.portText ++ 47 :: r).length =
      u.path := by
    rw [hend, List.append_assoc _ (47 :: r), slice_append, hpath]
  rw [create_tail hread hpassed h.query h.fragment rfl rfl hend, hslice]

/-- The URI that is parsed is the URI that was printed, part by part. -/
def RoundTrips (u : Uri) : Prop :=
  ∃ v, Uri.create u.toString = .ok (some v) ∧ v.scheme = u.scheme ∧
    v.userinfo = u.userinfo ∧ v.host = u.host ∧ v.getPort = u.getPort ∧
    v.getPath = u.getPath ∧ v.query = u.query ∧ v.fragment = u.fragment

/-- The first colon of the userinfo is followed by a digit. -/
def ColonDigit (x : List UInt8) : Prop :=
  ∃ a d b, x = a ++ 58 :: d :: b ∧ 58 ∉ a ∧ isDigit d = true

theorem savedUserinfo_eq_self_iff (x : List UInt8) : savedUserinfo x = x ↔ ¬ ColonDigit x := by
  constructor
  · rintro hsaved ⟨a, d, b, rfl, ha, hd⟩
    rw [savedUserinfo_colon ha, startsWithDigit, if_pos hd] at hsaved
    have hlen := congrArg List.length hsaved
    simp only [List.length_append, List.length_cons] at hlen
    omega
  · intro hnot
    by_cases hcolon : 58 ∈ x
    · obtain ⟨a, b, rfl, ha⟩ := List.eq_append_cons_of_mem hcolon
      rw [savedUserinfo_colon ha, if_neg]
      intro hdigit
      cases b with
      | nil => cases hdigit
      | cons d b => exact hnot ⟨a, d, b, rfl, ha, hdigit⟩
    · exact savedUserinfo_of_not_mem hcolon

/-- A port that is not printed is the one that `getPort` supplies. -/
theorem getPort_parsedPort (u : Uri) (hpos : 1 ≤ u.port) (x : List UInt8) :
    Uri.getPort { u with userinfo := x, port := u.parsedPort } = u.getPort := by
  have hne : u.port ≠ 0 := by omega
  cases hdefault : u.isDefaultPort with
  | false =>
    rw [Uri.parsedPort, hdefault]
    rfl
  | true =>
    rw [Uri.parsedPort, hdefault, if_pos rfl, Uri.getPort, Uri.getPort, if_pos hne]
    rw [Uri.isDefaultPort, if_neg hne] at hdefault
    split_ifs at hdefault with hhttp hhttps
    · simp [hhttp, of_decide_eq_true hdefault]
    · simp [hhttp, hhttps, of_decide_eq_true hdefault]

/-- A printed URI is parsed back exactly if no digit follows the first colon of its
userinfo. -/
theorem roundTrips_iff (u : Uri) (h : u.Printable) :
    RoundTrips u ↔ ¬ ColonDigit u.userinfo := by
  rw [← savedUserinfo_eq_self_iff]
  constructor
  · rintro ⟨v, hv, -, huser, -⟩
    rw [h.create_toString] at hv
    cases hv
    exact huser
  · intro hsaved
    refine ⟨_, h.create_toString, rfl, hsaved, rfl, ?_, rfl, rfl, rfl⟩
    exact getPort_parsedPort u h.port_pos _

/-- `https://user:pw@civan.io:8443/a/b?k=1#top`. -/
def passwordUri : Uri :=
  ⟨bytesOf "https", bytesOf "user:pw", bytesOf "civan.io", bytesOf "/a/b", bytesOf "k=1",
    bytesOf "top", 8443⟩

theorem passwordUri_printable :
    passwordUri.Printable where
  scheme := mem_lang_of_accepting (by decide)
  userinfo := Or.inr (mem_lang_of_accepting (by decide))
  host := mem_lang_of_accepting (by decide)
  host_ne_nil := by decide
  port_pos := by decide
  port_le := by decide
  path := ⟨bytesOf "a/b", rfl, mem_lang_of_accepting (by decide)⟩
  query := mem_lang_of_accepting (by decide)
  fragment := mem_lang_of_accepting (by decide)

theorem passwordUri_roundTrips : passwordUri.Printable ∧ RoundTrips passwordUri :=
  ⟨passwordUri_printable, (roundTrips_iff passwordUri passwordUri_printable).mpr
    ((savedUserinfo_eq_self_iff _).mp (by decide))⟩

/-- `http://a:1@h/`. -/
def digitUri : Uri :=
  ⟨bytesOf "http", bytesOf "a:1", bytesOf "h", bytesOf "/", [], [], 80⟩

/-- Its userinfo comes back as `1`. -/
theorem digitUri_loses_user :
    digitUri.Printable ∧
      Uri.create digitUri.toString =
        .ok (some { digitUri with userinfo := bytesOf "1", port := 0 }) ∧
      ¬ RoundTrips digitUri := by
  have hcreate : Uri.create digitUri.toString =
      .ok (some { digitUri with userinfo := bytesOf "1", port := 0 }) := by decide
  refine ⟨?_, hcreate, ?_⟩
  · exact
      { scheme := mem_lang_of_accepting (by decide)
        userinfo := Or.inr (mem_lang_of_accepting (by decide))
        host := mem_lang_of_accepting (by decide)
        host_ne_nil := by decide
        port_pos := by decide
        port_le := by decide
        path := ⟨[], rfl, mem_lang_of_accepting (by decide)⟩
        query := mem_lang_of_accepting (by decide)
        fragment := mem_lang_of_accepting (by decide) }
  · rintro ⟨v, hv, -, huser, -⟩
    rw [hcreate] at hv
    cases hv
    exact absurd huser (by decide)

end Printed

end UriParser
end Civan
