import Mathlib.Data.List.TakeWhile
import EpollThreads.Config.Directives

/-!
# Accepted settings are in range

The branches store before they check, so a load that fails can leave a value
out of range behind. One that returns 0 admitted every directive of the file.
The character arrays are never overrun: no argument is longer than the buffer
that held its line.
-/

namespace EpollThreads.Config

open Foundations Logging

structure SERVER.InRange (g : SERVER) : Prop where
  port : 0 ≤ g.port ∧ g.port ≤ 65535
  maxidletime : 0 ≤ g.maxidletime
  maxclients : 1 ≤ g.maxclients
  maxthreads : 1 ≤ g.maxthreads
  daemonize : g.daemonize = 0 ∨ g.daemonize = 1
  verbosity : MY_DEBUG ≤ g.verbosity ∧ g.verbosity ≤ MY_WARNING

theorem inRange_initServerConfig : initServerConfig.InRange := by
  constructor <;> decide

theorem verbosityOf_range {value : List Byte} {verbosity : ℤ}
    (h : verbosityOf value = some verbosity) : MY_DEBUG ≤ verbosity ∧ verbosity ≤ MY_WARNING := by
  unfold verbosityOf at h
  split_ifs at h <;> obtain rfl := Option.some.inj h <;> decide

theorem SERVER.InRange.assign {canAppend : List Byte → Bool} {g : SERVER}
    {d : List Byte × List Byte} (hg : g.InRange) (hd : Admissible canAppend d) :
    (Config.assign g d).InRange := by
  obtain ⟨-, hd⟩ := hd
  unfold Config.assign
  cases hk : settingOf d.1 with
  | none => exact hg
  | some k =>
    rw [hk] at hd
    cases k with
    | daemonize => exact { hg with daemonize := by simp only; split_ifs <;> simp }
    | pidfile => exact { hg with }
    | port => exact { hg with port := hd }
    | bind => exact { hg with }
    | timeout => exact { hg with maxidletime := hd }
    | loglevel =>
      obtain ⟨verbosity, hv⟩ := Option.isSome_iff_exists.mp hd
      exact { hg with verbosity := by simpa [hv] using verbosityOf_range hv }
    | logfile => exact { hg with }
    | maxclients => exact { hg with maxclients := hd }
    | maxthreads => exact { hg with maxthreads := hd }

theorem Accepts.inRange {files : Files} {content : List Byte} {g : SERVER}
    (h : Accepts files content g) : g.InRange := by
  obtain ⟨rfl, ha⟩ := h.directives
  exact List.foldlRecOn _ _ inRange_initServerConfig fun g hg d hd => hg.assign (ha d hd)

/-- The text with its NUL fits into one of the character arrays. -/
def Fits (text : List Byte) : Prop := 0 ∉ text ∧ text.length < MIN_BUFSZ

theorem Fits.sublist {text text' : List Byte} (h : Fits text) (hsub : text'.Sublist text) :
    Fits text' :=
  ⟨fun hmem => h.1 (hsub.mem hmem), hsub.length_le.trans_lt h.2⟩

theorem fits_cstr {buffer : List Byte} (h : buffer.length < MIN_BUFSZ) : Fits (cstr buffer) := by
  refine ⟨?_, (List.takeWhile_sublist _).length_le.trans_lt h⟩
  intro hmem
  simpa using List.mem_takeWhile_imp hmem

theorem strip_sublist (s : List Byte) : (strip s).Sublist s := by
  have hright : (stripRight (s.dropWhile isBlank)).reverse.Sublist
      (s.dropWhile isBlank).reverse := by
    rw [stripRight, List.reverse_reverse]
    exact List.dropWhile_sublist _
  exact (List.reverse_sublist.mp hright).trans (List.dropWhile_sublist _)

/-- The arguments of the file fit. -/
theorem fits_argument {fuel : ℕ} {content : List Byte} {d : List Byte × List Byte}
    (h : d ∈ (fgetsAll MY_CONFIGLINE_MAX fuel content).filterMap lineDirective) : Fits d.2 := by
  obtain ⟨piece, hpiece, hd⟩ := List.mem_filterMap.mp h
  have hlen : piece.length < MIN_BUFSZ := Nat.lt_succ_of_le (length_le_of_mem_fgetsAll hpiece)
  unfold lineDirective at hd
  simp only at hd
  split_ifs at hd
  obtain rfl := Option.some.inj hd
  refine (fits_cstr hlen).sublist ((strip_sublist _).trans ?_)
  exact (List.dropWhile_sublist _).trans (List.dropWhile_sublist _)

structure SERVER.Valid (g : SERVER) : Prop extends g.InRange where
  pidfile : Fits g.pidfile
  bindaddr : Fits g.bindaddr
  logfile : Fits g.logfile

theorem valid_initServerConfig : initServerConfig.Valid where
  toInRange := inRange_initServerConfig
  pidfile := ⟨by decide, by decide⟩
  bindaddr := ⟨by decide, by decide⟩
  logfile := ⟨by decide, by decide⟩

theorem SERVER.Valid.assign {canAppend : List Byte → Bool} {g : SERVER}
    {d : List Byte × List Byte} (hg : g.Valid) (hd : Admissible canAppend d) (hfits : Fits d.2) :
    (Config.assign g d).Valid := by
  refine ⟨hg.toInRange.assign hd, ?_, ?_, ?_⟩ <;> unfold Config.assign
  · cases settingOf d.1 with
    | none => exact hg.pidfile
    | some k => cases k <;> first | exact hg.pidfile | exact hfits
  · cases settingOf d.1 with
    | none => exact hg.bindaddr
    | some k => cases k <;> first | exact hg.bindaddr | exact hfits
  · cases settingOf d.1 with
    | none => exact hg.logfile
    | some k =>
      cases k with
      | logfile =>
        simp only
        split_ifs
        · exact hg.logfile
        · exact hfits
      | _ => exact hg.logfile

theorem Accepts.valid {files : Files} {content : List Byte} {g : SERVER}
    (h : Accepts files content g) : g.Valid := by
  obtain ⟨rfl, ha⟩ := h.directives
  exact List.foldlRecOn _ _ valid_initServerConfig fun g hg d hd =>
    hg.assign (ha d hd) (fits_argument hd)

end EpollThreads.Config
