import Mathlib.Data.Int.Notation
import Mathlib.Tactic.Common

/-! # CaDiCaL's option table

The entries of `options.hpp` that this build compiles in: `LOGGING` is off and `QUIET` is on, so
`log`, `logsort`, `quiet` and `verbose` are not among them. `Options::has` finds an entry by name,
`zusat_option_range` reads its bounds. -/

namespace Zusat
set_option autoImplicit false
set_option maxRecDepth 20000

/-- One `OPTION` line: name, default and bounds. -/
structure OptionSpec where
  name : String
  default : ℤ
  lo : ℤ
  hi : ℤ
  deriving DecidableEq, Repr

/-- `OPTIONS`. -/
def optionTable : List OptionSpec :=
  [⟨"arena", 1, 0, 1⟩, ⟨"arenacompact", 1, 0, 1⟩, ⟨"arenasort", 1, 0, 1⟩, ⟨"arenatype", 3, 1, 3⟩,
   ⟨"backbone", 1, 0, 2⟩, ⟨"backboneeffort", 20, 0, 100000⟩,
   ⟨"backbonemaxrounds", 1000, 0, 100000⟩, ⟨"backbonerounds", 100, 0, 100000⟩,
   ⟨"backbonethresh", 5, 0, 1000000000⟩, ⟨"binary", 1, 0, 1⟩, ⟨"block", 0, 0, 1⟩,
   ⟨"blockmaxclslim", 100000, 1, 2000000000⟩, ⟨"blockminclslim", 2, 2, 2000000000⟩,
   ⟨"blockocclim", 100, 1, 2000000000⟩, ⟨"bump", 1, 0, 1⟩, ⟨"bumpreason", 1, 0, 1⟩,
   ⟨"bumpreasondepth", 1, 1, 3⟩, ⟨"bumpreasonlimit", 10, 1, 2000000000⟩,
   ⟨"bumpreasonrate", 100, 1, 2000000000⟩, ⟨"check", 0, 0, 1⟩, ⟨"checkassumptions", 1, 0, 1⟩,
   ⟨"checkconstraint", 1, 0, 1⟩, ⟨"checkfailed", 1, 0, 1⟩, ⟨"checkfrozen", 0, 0, 1⟩,
   ⟨"checkproof", 3, 0, 3⟩, ⟨"checkwitness", 1, 0, 1⟩, ⟨"chrono", 1, 0, 2⟩,
   ⟨"chronoalways", 0, 0, 1⟩, ⟨"chronolevelim", 100, 0, 2000000000⟩,
   ⟨"chronoreusetrail", 1, 0, 1⟩, ⟨"compact", 1, 0, 1⟩, ⟨"compactint", 2000, 1, 2000000000⟩,
   ⟨"compactlim", 100, 0, 1000⟩, ⟨"compactmin", 100, 1, 2000000000⟩, ⟨"condition", 0, 0, 1⟩,
   ⟨"conditioneffort", 100, 1, 100000⟩, ⟨"conditionint", 10000, 1, 2000000000⟩,
   ⟨"conditionmaxeff", 10000000, 0, 2000000000⟩, ⟨"conditionmaxrat", 100, 1, 2000000000⟩,
   ⟨"conditionmineff", 0, 0, 2000000000⟩, ⟨"congruence", 1, 0, 1⟩, ⟨"congruenceand", 1, 0, 1⟩,
   ⟨"congruenceandarity", 1000000, 2, 50000000⟩, ⟨"congruencebinaries", 1, 0, 1⟩,
   ⟨"congruenceite", 1, 0, 1⟩, ⟨"congruencexor", 1, 0, 1⟩, ⟨"congruencexorarity", 4, 2, 31⟩,
   ⟨"congruencexorcounts", 1, 1, 5000000⟩, ⟨"cover", 0, 0, 1⟩, ⟨"covereffort", 4, 1, 100000⟩,
   ⟨"covermaxclslim", 100000, 1, 2000000000⟩, ⟨"covermaxeff", 100000000, 0, 2000000000⟩,
   ⟨"coverminclslim", 2, 2, 2000000000⟩, ⟨"covermineff", 0, 0, 2000000000⟩,
   ⟨"decompose", 1, 0, 1⟩, ⟨"decomposerounds", 2, 1, 16⟩, ⟨"deduplicate", 1, 0, 1⟩,
   ⟨"deduplicateallinit", 0, 0, 1⟩, ⟨"eagersubsume", 1, 0, 1⟩, ⟨"eagersubsumelim", 20, 1, 1000⟩,
   ⟨"elevate", 2, -1, 3⟩, ⟨"elim", 1, 0, 1⟩, ⟨"elimands", 1, 0, 1⟩, ⟨"elimbackward", 1, 0, 1⟩,
   ⟨"elimboundmax", 16, -1, 2000000⟩, ⟨"elimboundmin", 0, -1, 2000000⟩,
   ⟨"elimclslim", 100, 2, 2000000000⟩, ⟨"elimdef", 0, 0, 1⟩, ⟨"elimdefcores", 1, 1, 100⟩,
   ⟨"elimdefticks", 200000, 0, 2000000000⟩, ⟨"elimeffort", 1000, 1, 100000⟩,
   ⟨"elimequivs", 1, 0, 1⟩, ⟨"elimint", 2000, 1, 2000000000⟩, ⟨"elimites", 1, 0, 1⟩,
   ⟨"elimlimited", 1, 0, 1⟩, ⟨"elimmaxeff", 2000000000, 0, 2000000000⟩,
   ⟨"elimmineff", 10000000, 0, 2000000000⟩, ⟨"elimocclim", 100, 0, 2000000000⟩,
   ⟨"elimprod", 1, 0, 10000⟩, ⟨"elimrounds", 2, 1, 512⟩, ⟨"elimsubst", 1, 0, 1⟩,
   ⟨"elimsum", 1, 0, 10000⟩, ⟨"elimxorlim", 5, 2, 27⟩, ⟨"elimxors", 1, 0, 1⟩,
   ⟨"emadecisions", 100000, 1, 2000000000⟩, ⟨"emagluefast", 33, 1, 2000000000⟩,
   ⟨"emaglueslow", 100000, 1, 2000000000⟩, ⟨"emajump", 100000, 1, 2000000000⟩,
   ⟨"emalevel", 100000, 1, 2000000000⟩, ⟨"emasize", 100000, 1, 2000000000⟩,
   ⟨"ematrailfast", 100, 1, 2000000000⟩, ⟨"ematrailslow", 100000, 1, 2000000000⟩,
   ⟨"exteagerreasons", 0, 0, 1⟩, ⟨"exteagerrecalc", 1, 0, 1⟩, ⟨"exttracecalls", 0, 0, 1⟩,
   ⟨"factor", 0, 0, 1⟩, ⟨"factorcandrounds", 2, 0, 2000000000⟩, ⟨"factorcheck", 1, 0, 2⟩,
   ⟨"factordelay", 4, 0, 12⟩, ⟨"factoreffort", 50, 0, 1000000⟩,
   ⟨"factoriniticks", 300, 1, 1000000⟩, ⟨"factorsize", 5, 2, 2000000000⟩,
   ⟨"factorthresh", 7, 0, 100⟩, ⟨"factorunbump", 1, 0, 1⟩, ⟨"fastelim", 1, 0, 1⟩,
   ⟨"fastelimbound", 8, 1, 1000⟩, ⟨"fastelimclslim", 100, 2, 2000000000⟩,
   ⟨"fastelimocclim", 100, 1, 2000000000⟩, ⟨"fastelimrounds", 4, 1, 512⟩, ⟨"flush", 0, 0, 1⟩,
   ⟨"flushfactor", 3, 1, 1000⟩, ⟨"flushint", 100000, 1, 2000000000⟩, ⟨"forcephase", 0, 0, 1⟩,
   ⟨"frat", 0, 0, 2⟩, ⟨"idrup", 0, 0, 1⟩, ⟨"ilb", 0, 0, 2⟩, ⟨"incdecay", 1, 0, 4⟩,
   ⟨"incdecayint", 1000000, 1, 2000000000⟩, ⟨"inprobeint", 100, 1, 2000000000⟩,
   ⟨"inprobing", 1, 0, 1⟩, ⟨"inprocessing", 1, 0, 1⟩, ⟨"instantiate", 0, 0, 1⟩,
   ⟨"instantiateclslim", 3, 2, 2000000000⟩, ⟨"instantiateocclim", 1, 1, 2000000000⟩,
   ⟨"instantiateonce", 1, 0, 1⟩, ⟨"lidrup", 0, 0, 1⟩, ⟨"lrat", 0, 0, 1⟩, ⟨"lucky", 1, 0, 1⟩,
   ⟨"luckyassumptions", 1, 0, 1⟩, ⟨"luckyearly", 1, 0, 1⟩, ⟨"luckylate", 1, 0, 1⟩,
   ⟨"minimize", 1, 0, 1⟩, ⟨"minimizedepth", 1000, 0, 1000⟩, ⟨"minimizeticks", 1, 0, 1⟩,
   ⟨"otfs", 1, 0, 1⟩, ⟨"phase", 1, 0, 1⟩, ⟨"preprocessinit", 2000000, 0, 2000000000⟩,
   ⟨"preprocesslight", 0, 0, 1⟩, ⟨"probe", 1, 0, 1⟩, ⟨"probeeffort", 8, 1, 100000⟩,
   ⟨"probehbr", 1, 0, 1⟩, ⟨"probethresh", 0, 0, 100⟩, ⟨"profile", 2, 0, 4⟩,
   ⟨"radixsortlim", 32, 0, 2000000000⟩, ⟨"randec", 0, 0, 1⟩, ⟨"randecfocused", 1, 0, 1⟩,
   ⟨"randecinit", 1000, 2, 2000000000⟩, ⟨"randecint", 500, 0, 2000000000⟩,
   ⟨"randeclength", 10, 1, 1000000000⟩, ⟨"randecstable", 0, 0, 1⟩, ⟨"realtime", 0, 0, 1⟩,
   ⟨"recomputetier", 1, 0, 1⟩, ⟨"reduce", 1, 0, 1⟩, ⟨"reduceinit", 300, 1, 1000000⟩,
   ⟨"reduceint", 25, 2, 1000000⟩, ⟨"reduceopt", 1, 0, 2⟩, ⟨"reducetarget", 75, 10, 100⟩,
   ⟨"reducetier1glue", 2, 1, 2000000000⟩, ⟨"reducetier2glue", 6, 1, 2000000000⟩,
   ⟨"reluctant", 1, 0, 1⟩, ⟨"reluctantint", 1024, 0, 2000000000⟩,
   ⟨"reluctantmax", 1048576, 0, 2000000000⟩, ⟨"rephase", 1, 0, 2⟩,
   ⟨"rephaseint", 1000, 1, 2000000000⟩, ⟨"report", 0, 0, 1⟩, ⟨"reportall", 0, 0, 1⟩,
   ⟨"reportsolve", 0, 0, 1⟩, ⟨"restart", 1, 0, 1⟩, ⟨"restartint", 2, 1, 2000000000⟩,
   ⟨"restartmarginfocused", 10, 0, 25⟩, ⟨"restartmarginstable", 25, 0, 25⟩,
   ⟨"restartreusetrail", 1, 0, 1⟩, ⟨"restoreall", 0, 0, 2⟩,
   ⟨"restoreflush", 0, 0, 1⟩, ⟨"reverse", 0, 0, 1⟩, ⟨"score", 1, 0, 1⟩,
   ⟨"scorefactor", 950, 500, 1000⟩, ⟨"seed", 0, 0, 2000000000⟩, ⟨"shrink", 3, 0, 3⟩,
   ⟨"shrinkreap", 1, 0, 1⟩, ⟨"shuffle", 0, 0, 1⟩, ⟨"shufflequeue", 1, 0, 1⟩,
   ⟨"shufflerandom", 0, 0, 1⟩, ⟨"shufflescores", 1, 0, 1⟩, ⟨"stabilize", 1, 0, 1⟩,
   ⟨"stabilizeinit", 1000, 1, 2000000000⟩, ⟨"stabilizeonly", 0, 0, 1⟩, ⟨"stats", 0, 0, 1⟩,
   ⟨"stubbornIOfocused", 0, 0, 1⟩, ⟨"subsume", 1, 0, 1⟩, ⟨"subsumebinlim", 10000, 0, 2000000000⟩,
   ⟨"subsumeclslim", 100, 0, 2000000000⟩, ⟨"subsumeeffort", 1000, 1, 100000⟩,
   ⟨"subsumelimited", 1, 0, 1⟩, ⟨"subsumemaxeff", 100000000, 0, 2000000000⟩,
   ⟨"subsumemineff", 0, 0, 2000000000⟩, ⟨"subsumeocclim", 100, 0, 2000000000⟩,
   ⟨"subsumestr", 1, 0, 1⟩, ⟨"sweep", 1, 0, 1⟩, ⟨"sweepclauses", 1024, 0, 2000000000⟩,
   ⟨"sweepcomplete", 0, 0, 1⟩, ⟨"sweepcountbinary", 1, 0, 1⟩, ⟨"sweepdepth", 2, 0, 2000000000⟩,
   ⟨"sweepeffort", 100, 0, 10000⟩, ⟨"sweepfliprounds", 1, 0, 2000000000⟩,
   ⟨"sweepmaxclauses", 300000, 2, 2000000000⟩, ⟨"sweepmaxdepth", 3, 1, 2000000000⟩,
   ⟨"sweepmaxvars", 8192, 2, 2000000000⟩, ⟨"sweeprand", 0, 0, 1⟩, ⟨"sweepthresh", 5, 0, 100⟩,
   ⟨"sweepvars", 256, 0, 2000000000⟩, ⟨"target", 1, 0, 2⟩, ⟨"terminateint", 10, 0, 10000⟩,
   ⟨"ternary", 1, 0, 1⟩, ⟨"ternaryeffort", 8, 1, 100000⟩, ⟨"ternarymaxadd", 1000, 0, 10000⟩,
   ⟨"ternaryocclim", 100, 1, 2000000000⟩, ⟨"ternaryrounds", 2, 1, 16⟩,
   ⟨"ternarythresh", 6, 0, 100⟩, ⟨"tier1limit", 50, 0, 100⟩, ⟨"tier1minglue", 0, 0, 100⟩,
   ⟨"tier2limit", 90, 0, 100⟩, ⟨"tier2minglue", 0, 0, 100⟩, ⟨"transred", 1, 0, 1⟩,
   ⟨"transredeffort", 100, 1, 100000⟩, ⟨"transredmaxeff", 100000000, 0, 2000000000⟩,
   ⟨"transredmineff", 0, 0, 2000000000⟩, ⟨"veripb", 0, 0, 4⟩, ⟨"vivify", 1, 0, 1⟩,
   ⟨"vivifycalctier", 0, 0, 1⟩, ⟨"vivifydemote", 0, 0, 1⟩, ⟨"vivifyeffort", 50, 0, 100000⟩,
   ⟨"vivifyflush", 1, 0, 1⟩, ⟨"vivifyinst", 1, 0, 1⟩, ⟨"vivifyirred", 1, 0, 1⟩,
   ⟨"vivifyirredeff", 3, 1, 100⟩, ⟨"vivifyonce", 0, 0, 2⟩, ⟨"vivifyretry", 0, 0, 5⟩,
   ⟨"vivifyschedmax", 5000, 10, 2000000000⟩, ⟨"vivifythresh", 20, 0, 100⟩,
   ⟨"vivifytier1", 1, 0, 1⟩, ⟨"vivifytier1eff", 4, 0, 100⟩, ⟨"vivifytier2", 1, 0, 1⟩,
   ⟨"vivifytier2eff", 2, 1, 100⟩, ⟨"vivifytier3", 1, 0, 1⟩, ⟨"vivifytier3eff", 1, 1, 100⟩,
   ⟨"walk", 1, 0, 1⟩, ⟨"walkeffort", 80, 1, 100000⟩, ⟨"walkfullocc", 0, 0, 1⟩,
   ⟨"walkmaxeff", 10000000, 0, 2000000000⟩, ⟨"walkmineff", 0, 0, 10000000⟩,
   ⟨"walknonstable", 1, 0, 1⟩, ⟨"walkredundant", 0, 0, 1⟩, ⟨"warmup", 1, 0, 1⟩]

/-- `Options::has`. The source searches the sorted table by bisection. -/
def hasOption (name : String) : Option OptionSpec :=
  optionTable.find? (fun o => o.name == name)

/-- Current option values. -/
abbrev Options := String → ℤ

/-- The values a new solver starts with. -/
def defaultOptions : Options := fun name => ((hasOption name).map OptionSpec.default).getD 0

end Zusat
